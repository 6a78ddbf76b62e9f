import Cget.Mismatch
import Cget.Twins
/-!
# Neighbours in a queue

Tasks that share no file leave each other's files alone, so each round of a loop over them
finds the files of its task as they were when the loop began, and the loop leaves them as
the round did.
-/

namespace Cget

open Prog

variable {env : Env} {envs : TaskId → Env} {t u t' u' : DownloadTask} {w w' : World} {n : Path}
  {f : DownloadTask → Prog World Exn DownloadTask}

/-! ## Tasks that share no file -/

/-- Neither target is the file of the other one or the temp file beside it, and neither temp directory is
inside the other. -/
structure DownloadTask.Separate (t u : DownloadTask) : Prop where
  target : ¬ OneFile t.targetPath u.targetPath
  temp : ¬ OneFile (tempTarget t.targetPath) u.targetPath
  temp' : ¬ OneFile (tempTarget u.targetPath) t.targetPath
  dir : ¬ joinPath t.tempDir [] <+: joinPath u.tempDir []
  dir' : ¬ joinPath u.tempDir [] <+: joinPath t.tempDir []

instance (t u : DownloadTask) : Decidable (t.Separate u) :=
  decidable_of_iff (¬ OneFile t.targetPath u.targetPath ∧ ¬ OneFile (tempTarget t.targetPath) u.targetPath ∧
      ¬ OneFile (tempTarget u.targetPath) t.targetPath ∧
    ¬ joinPath t.tempDir [] <+: joinPath u.tempDir [] ∧ ¬ joinPath u.tempDir [] <+: joinPath t.tempDir [])
    ⟨fun ⟨h1, h2, h3, h4, h5⟩ => ⟨h1, h2, h3, h4, h5⟩, fun ⟨h1, h2, h3, h4, h5⟩ => ⟨h1, h2, h3, h4, h5⟩⟩

theorem DownloadTask.Separate.congr (h : t.Separate u) (ht : t.SameOrigin t') (hu : u.SameOrigin u') :
    t'.Separate u' := by
  obtain ⟨h1, h2, h3, h4, h5⟩ := h
  rw [← ht.2.2.1, ← hu.2.2.1] at h1
  rw [← ht.2.2.1, ← hu.2.2.1] at h2 h3
  rw [← ht.2.2.2.1, ← hu.2.2.2.1] at h4 h5
  exact ⟨h1, h2, h3, h4, h5⟩

/-- A file in a directory. -/
theorem joinPath_safe (a : Path) (hn : SafeName n) : joinPath a n = joinPath a [] ++ n := by
  unfold SafeName isAbsolute at hn
  rw [Bool.or_eq_false_iff, decide_eq_false_iff_not] at hn
  have hnil : ¬ ([] : Path).head? = some 47 := by simp
  unfold joinPath
  rw [if_neg hn.2, if_neg hnil]
  split
  · simp
  · simp

/-- Neither temp directory is inside the other. -/
def DownloadTask.DirsApart (t u : DownloadTask) : Prop :=
  ¬ joinPath t.tempDir [] <+: joinPath u.tempDir [] ∧ ¬ joinPath u.tempDir [] <+: joinPath t.tempDir []

instance (t u : DownloadTask) : Decidable (t.DirsApart u) :=
  inferInstanceAs (Decidable (¬ joinPath t.tempDir [] <+: joinPath u.tempDir [] ∧
    ¬ joinPath u.tempDir [] <+: joinPath t.tempDir []))

theorem DownloadTask.Separate.dirs (h : t.Separate u) : t.DirsApart u := ⟨h.dir, h.dir'⟩

theorem DownloadTask.DirsApart.symm (h : t.DirsApart u) : u.DirsApart t := ⟨h.2, h.1⟩

theorem DownloadTask.DirsApart.congr (h : t.DirsApart u) (ht : t'.tempDir = t.tempDir) (hu : u'.tempDir = u.tempDir) :
    t'.DirsApart u' := by
  rw [DirsApart, ht, hu]
  exact h

theorem DownloadTask.DirsApart.paths (h : t.DirsApart u) {m : Path} (hm : SafeName m) (hn : SafeName n) :
    joinPath t.tempDir m ≠ joinPath u.tempDir n := by
  rw [joinPath_safe _ hm, joinPath_safe _ hn]
  intro heq
  rcases List.prefix_or_prefix_of_prefix (List.prefix_append _ m) (heq ▸ List.prefix_append _ n) with hin | hin
  · exact h.1 hin
  · exact h.2 hin

/-! ## Sessions on other tasks -/

/-- A task with one of the output files of `t` and one of the files under its temp directory. -/
def DownloadTask.having (t : DownloadTask) (out n : Path) : DownloadTask :=
  { t with targetPath := out, chunks := [{ tempPath := n }] }

theorem having_part {out p : Path} (hn : SafeName n) : (t.having out n).HasPart p ↔ p = joinPath t.tempDir n := by
  have hpath : chunkPath (t.having out n) { tempPath := n } = .ok (joinPath t.tempDir n) :=
    if_neg (Bool.eq_false_iff.1 hn)
  unfold DownloadTask.HasPart
  rw [show (t.having out n).chunks = [{ tempPath := n }] from rfl]
  simp only [List.mem_singleton, exists_eq_left, hpath, Except.ok.injEq]
  exact eq_comm

/-- A task of the store whose temp directory is elsewhere, and whose target is, has none of these files. -/
theorem DownloadTask.DirsApart.avoids (h : u.DirsApart t) (hid : u.id ≠ t.id) (hlaid : u.Laid) {out : Path}
    (htarget : ¬ OneFile u.targetPath out) (htemp : ¬ OneFile (tempTarget u.targetPath) out) (hn : SafeName n) :
    u.Avoids (t.having out n) := by
  have hother : ∀ m, SafeName m → ¬ (t.having out n).HasPart (joinPath u.tempDir m) := by
    intro m hm hpart
    exact h.paths hm hn ((having_part hn).1 hpart)
  have hplanned : ∀ i, SafeName (ChunkPlanner.chunkName i) := by
    intro i
    unfold SafeName
    rw [(chunkName_safe i).1, (chunkName_safe i).2]
    rfl
  refine ⟨hid, htarget, htemp, fun c hc => ?_, hother _ safeName_single, fun i => hother _ (hplanned i)⟩
  rcases hlaid with hnone | ⟨-, -, hnamed, -⟩
  · rw [hnone] at hc
    cases hc
  · rcases hnamed c hc with hname | hname
    · rw [hname]
      exact hother _ safeName_single
    · rw [hname]
      exact hother _ (hplanned _)

/-- A task of the store that shares no file with `t` has none of its files. -/
theorem DownloadTask.Separate.avoids (h : u.Separate t) (hid : u.id ≠ t.id) (hlaid : u.Laid) {out : Path}
    (hout : out = t.targetPath ∨ out = tempTarget t.targetPath) (hn : SafeName n) : u.Avoids (t.having out n) := by
  refine h.dirs.avoids hid hlaid ?_ ?_ hn
  · rcases hout with rfl | rfl
    · exact h.target
    · exact fun heq => h.temp' heq.symm
  · rcases hout with rfl | rfl
    · exact h.temp
    · exact fun heq => h.target (oneFile_of_temp heq)

/-- What spares each of the files of `t` spares all. -/
theorem SameFiles.of_spared (h : ∀ out n, out = t.targetPath ∨ out = tempTarget t.targetPath → SafeName n → Spared
    (t.having out n) w w') :
    SameFiles t w w' := by
  refine ⟨(h _ _ (.inl rfl) safeName_single).target, (h _ _ (.inr rfl) safeName_single).target, fun n hn => ?_⟩
  exact (h _ _ (.inl rfl) hn).parts _ ((having_part hn).2 rfl)

theorem keeps_prepareTask (h : u.Separate t) (hid : u.id ≠ t.id) (hlaid : u.Laid) :
    Keeps (SameFiles t w) (onTask u (prepareTask env)) := by
  intro w₁ hw₁
  refine wp_const.2 (hw₁.trans (.of_spared fun out n hout hn => wp_const.1 (wp_onTask.2 ?_)))
  have hsession : Aside (t.having out n) w₁ { world := w₁, task := u } := ⟨.refl, h.avoids hid hlaid hout hn⟩
  exact wp_mono (aside_prepareTask _ hsession) (fun _ _ h => h.1) (fun _ _ h => h.1) (fun _ h => h.1)

theorem keeps_finishTask (h : u.Separate t) (hid : u.id ≠ t.id) (hlaid : u.Laid) :
    Keeps (SameFiles t w) (finishTask envs u) := by
  intro w₁ hw₁
  refine wp_const.2 (hw₁.trans (.of_spared fun out n hout hn => wp_const.1 ?_))
  exact wp_mono ((finishTask_aside envs _).other u w₁ (h.avoids hid hlaid hout hn)) (fun _ _ h => h.1) (fun _ _ h => h)
    (fun _ h => h)

/-- Whatever its target is, a task in another temp directory leaves the part files of `t` alone. -/
theorem keeps_parts (h : u.DirsApart t) (hid : u.id ≠ t.id) (hlaid : u.Laid) (hn : SafeName n) :
    Keeps (fun w' => w'.disk.parts (joinPath t.tempDir n) = w.disk.parts (joinPath t.tempDir n))
      (finishTask envs u) := by
  -- an output file that is neither the target of `u` nor the temp file beside it
  have hlong : ¬ OneFile (tempTarget (tempTarget u.targetPath)) u.targetPath := by
    have heq : tempTarget (tempTarget u.targetPath) = u.targetPath ++ (text ".cget.tmp" ++ text ".cget.tmp") :=
      List.append_assoc _ _ _
    rw [heq]
    exact posix.not_same_append (by decide) (by decide) _
  have havoids : u.Avoids (t.having (tempTarget (tempTarget u.targetPath)) n) :=
    h.avoids hid hlaid (fun heq => hlong heq.symm) (fun heq => tempTarget_apart _ heq.symm) hn
  intro w₁ hw₁
  refine wp_const.2 ?_
  have hspared : Spared (t.having (tempTarget (tempTarget u.targetPath)) n) w₁ ((finishTask envs u).run w₁).2 :=
    wp_const.1 <|
    wp_mono ((finishTask_aside envs _).other u w₁ havoids) (fun _ _ h => h.1) (fun _ _ h => h) (fun _ h => h)
  exact (hspared.parts _ ((having_part hn).2 rfl)).trans hw₁

/-! ## Loops over tasks -/

theorem prepareAll_eq (hengine : ∀ id, (envs id).engine = .ok ()) (ts : List DownloadTask) :
    prepareAll envs ts = finishEach (fun t => onTask t (prepareTask (envs t.id))) ts := by
  induction ts with
  | nil => rfl
  | cons t ts ih => rw [prepareAll, finishEach, ih, withEngine_created (hengine t.id)]

theorem finishEach_keeps {I : World → Prop} : ∀ ts : List DownloadTask, (∀ u ∈ ts, Keeps I (f u)) → Keeps I
    (finishEach f ts)
  | [], _ => KeepsOr.pure _
  | u :: ts, h => (h u List.mem_cons_self).bind fun _ =>
      (finishEach_keeps ts fun v hv => h v (List.mem_cons_of_mem _ hv)).bind fun _ => KeepsOr.pure _

/-- In a loop from `w` to `w'`, a round of `f` made `u` of `t`, with the files of `t` at hand. -/
def Round (f : DownloadTask → Prog World Exn DownloadTask) (w w' : World) (t u : DownloadTask) : Prop :=
  ∃ w₁ w₂, SameFiles t w w₁ ∧ (f t).run w₁ = (.ok u, w₂) ∧ SameFiles t w₂ w'

/-- A loop over tasks whose rounds return and leave the files of the others alone. -/
theorem finishEach_rounds : ∀ (ts : List DownloadTask) (w : World), (ts.map (·.id)).Nodup →
    (∀ t ∈ ts, ∀ u ∈ ts, u.id ≠ t.id → ∀ w, Keeps (SameFiles t w) (f u)) →
    (∀ t ∈ ts, ∀ w', SameFiles t w w' → wp (f t) (fun _ _ => True) (fun _ _ => False) (fun _ => True) w') →
    wp (finishEach f ts) (fun us w' => List.Forall₂ (Round f w w') ts us) (fun _ _ => False) (fun _ => True) w
  | [], _, _, _, _ => .nil
  | t :: ts, w, hids, hother, hreturns => by
    rw [List.map_cons, List.nodup_cons] at hids
    have hne : ∀ u ∈ ts, u.id ≠ t.id := fun u hu heq => hids.1 (heq ▸ List.mem_map_of_mem hu)
    have hround := hreturns t List.mem_cons_self w .refl
    unfold finishEach
    rw [wp_bind]
    rcases hrun : (f t).run w with ⟨u | e | _, w₁⟩
    · rw [wp_of_ok hrun]
      -- the other tasks find their files as they were
      have hkept : ∀ v ∈ ts, SameFiles v w w₁ := fun v hv =>
        (wp_of_ok hrun).1 (hother v (List.mem_cons_of_mem _ hv) t List.mem_cons_self (Ne.symm (hne v hv)) w w .refl)
      have hrest := finishEach_rounds ts w₁ hids.2
        (fun v hv x hx => hother v (List.mem_cons_of_mem _ hv) x (List.mem_cons_of_mem _ hx))
        fun v hv w' hw' => hreturns v (List.mem_cons_of_mem _ hv) w' ((hkept v hv).trans hw')
      have hlater : Keeps (SameFiles t w₁) (finishEach f ts) := finishEach_keeps ts fun v hv =>
        hother t List.mem_cons_self v (List.mem_cons_of_mem _ hv) (hne v hv) w₁
      rw [wp_bind]
      refine wp_mono (wp_and hrest (hlater w₁ .refl)) ?_ (fun _ _ h => h.1.elim) (fun _ _ => trivial)
      rintro us w' ⟨hrounds, hfiles⟩
      refine .cons ⟨w, w₁, .refl, hrun, hfiles⟩ ?_
      refine (List.forall₂_iff_get.2 ⟨hrounds.length_eq, fun i hi hi' => ?_⟩)
      obtain ⟨w₂, w₃, hbefore, hran, hafter⟩ := (List.forall₂_iff_get.1 hrounds).2 i hi hi'
      exact ⟨w₂, w₃, (hkept _ (List.get_mem _ _)).trans hbefore, hran, hafter⟩
    · rw [wp_of_thrown hrun] at hround
      exact hround.elim
    · rw [wp_of_stopped hrun]
      trivial

end Cget
