import Cget.Isolation
import Cget.Noninterference
import Cget.ReadBack
import Cget.Serving
/-!
# What recovery leaves of a store

`recoverTasks` goes through all tasks, whatever their status. It leaves the part files of each
no longer than their chunks, and counters that say how long they are, so a chunk that counts
as complete has its bytes. Tasks with temp directories apart do not meet in this.
-/

namespace Cget

open Prog

variable {env : Env} {t t' u : DownloadTask} {ts : List DownloadTask} {w w₁ : World} {d d' d₁ d₁' : Disk} {c : Chunk}
  {cs : List Chunk} {p n : Path} {scan : List TaskId}

/-! ## The part files of a task -/

/-- The disk with the part files of these chunks no longer than they are. -/
def DownloadTask.cutParts (t : DownloadTask) : Disk → List Chunk → Disk
  | d, [] => d
  | d, c :: cs => t.cutParts (match chunkPath t c with | .ok p => d.cut p c.size | .error _ => d) cs

theorem cutParts_cutTo : ∀ {cs : List Chunk} {d : Disk}, OwnParts t cs → CutTo t cs d (t.cutParts d cs)
  | [], _, _ => ⟨rfl, rfl, List.forall_mem_nil _, fun _ _ => rfl⟩
  | c :: cs, d, h => by
    obtain ⟨p, hpath⟩ := h.safe c List.mem_cons_self
    have hrest : CutTo t cs (d.cut p c.size) (t.cutParts (d.cut p c.size) cs) := cutParts_cutTo h.tail
    rw [DownloadTask.cutParts, hpath]
    exact hrest.cons h hpath

/-- The files that the task can have under its temp directory are the same. -/
def SameUnder (t : DownloadTask) (d d' : Disk) : Prop :=
  ∀ n, SafeName n → d'.parts (joinPath t.tempDir n) = d.parts (joinPath t.tempDir n)

theorem SameUnder.trans {d'' : Disk} (h : SameUnder t d d') (h' : SameUnder t d' d'') : SameUnder t d d'' :=
  fun n hn => (h' n hn).trans (h n hn)

theorem SameUnder.of_dir (h : SameUnder t d d') (hdir : u.tempDir = t.tempDir) : SameUnder u d d' := by
  unfold SameUnder
  rw [hdir]
  exact h

theorem SameUnder.partOn (h : SameUnder t d d') (c : Chunk) : t.partOn d' c = t.partOn d c := by
  cases hpath : chunkPath t c with
  | error e => simp [DownloadTask.partOn, hpath, Except.toOption]
  | ok p =>
    obtain ⟨hsafe, rfl⟩ := chunkPath_ok hpath
    rw [partOn_path hpath, partOn_path hpath]
    exact h _ hsafe

theorem CutTo.under (h : CutTo t cs d d') (h₁ : CutTo t cs d₁ d₁') (hsame : SameUnder t d d₁) : SameUnder t d' d₁' := by
  intro n hn
  by_cases hown : ∃ c ∈ cs, chunkPath t c = .ok (joinPath t.tempDir n)
  · obtain ⟨c, hc, hpath⟩ := hown
    have hcut := h.cut c hc
    have hcut₁ := h₁.cut c hc
    rw [hsame.partOn c, ← hcut, partOn_path hpath, partOn_path hpath] at hcut₁
    exact hcut₁
  · have hnone : ∀ c ∈ cs, chunkPath t c ≠ .ok (joinPath t.tempDir n) := fun c hc hpath => hown ⟨c, hc, hpath⟩
    rw [h₁.others _ hnone, h.others _ hnone]
    exact hsame n hn

/-! ## The recovery of one task -/

/-- The task `u` is `t` after a recovery of the disk `d`, which left `d'`. -/
structure Salvaged (d : Disk) (t u : DownloadTask) (d' : Disk) : Prop where
  worked : t.WorkedOn u
  chunks : u.chunks = t.chunks.map (repairedOn t d)
  parts : SameUnder t (t.cutParts d t.chunks) d'

namespace Salvaged

theorem dir (h : Salvaged d t u d') : u.tempDir = t.tempDir := h.worked.request.2.2.2.1

theorem under (h : Salvaged d t u d') (h' : SameUnder t d' d₁) : Salvaged d t u d₁ :=
  ⟨h.worked, h.chunks, h.parts.trans h'⟩

/-- The disk `d₁` before the recovery was `d` to the task. -/
theorem before (h : Salvaged d₁ t u d') (hlaid : t.Laid) (hsame : SameUnder t d d₁) : Salvaged d t u d' := by
  refine ⟨h.worked, h.chunks.trans (List.map_congr_left fun c _ => ?_), ?_⟩
  · rw [repairedOn, repairedOn, hsame.partOn c]
  · exact ((cutParts_cutTo hlaid.ownParts).under (cutParts_cutTo hlaid.ownParts) hsame).trans h.parts

theorem laid (h : Salvaged d t u d') (hlaid : t.Laid) : u.Laid := by
  have hlayout : u.layout = t.layout := by
    rw [DownloadTask.layout, h.chunks, List.map_map]
    rfl
  rw [laid_iff, hlayout, h.worked.request.2.2.2.2.1]
  exact laid_iff.1 hlaid

theorem fitsIn {b : Bounds} (h : Salvaged d t u d') (hfits : t.FitsIn b) : u.FitsIn b := by
  refine ⟨hfits.toBounded.workedOn h.worked, fun c' hc' => ?_⟩
  rw [h.chunks] at hc'
  obtain ⟨c, hc, rfl⟩ := List.mem_map.1 hc'
  have hfit := hfits.chunks c hc
  exact ⟨⟨hfit.fits.1, Nat.min_le_right _ _⟩, hfit.index, hfit.stop, hfit.retryCount⟩

/-- Complete chunks have their bytes. -/
theorem backed (h : Salvaged d t u d') (hlaid : t.Laid) : u.Backed d' := by
  intro c hc hst _
  have hwhole : Whole u (t.cutParts d t.chunks) := whole_repaired h.dir h.chunks (cutParts_cutTo hlaid.ownParts)
  rw [(h.parts.of_dir h.dir).partOn c]
  exact hwhole c hc (by simp [Chunk.schedulable, hst])

end Salvaged

/-- The loader finds the task that the recovery of `t` left. -/
def Salvages (d : Disk) (t : DownloadTask) (w : World) : Prop :=
  ∃ u, w.disk.loadTask t.id = some u ∧ Salvaged d t u w.disk

theorem recoverLoop_parts {x : Option Bytes} : ∀ ts :
    List DownloadTask, (∀ u ∈ ts, u.status ≠ .corrupted → ¬ u.owns p) →
    Keeps (fun w => w.disk.parts p = x) (recoverLoop env ts)
  | [], _ => KeepsOr.pure _
  | t :: ts, h => by
    have hrest : Keeps (fun w : World => w.disk.parts p = x) (recoverLoop env ts) :=
      recoverLoop_parts ts fun u hu => h u (List.mem_cons_of_mem _ hu)
    by_cases hst : t.status = .corrupted
    · unfold recoverLoop
      rw [if_pos hst]
      exact hrest.bind fun _ => KeepsOr.pure _
    · rw [recoverLoop_round hst]
      exact (recoverTask_parts env (h t List.mem_cons_self hst) x).bind fun _ => hrest.bind fun _ => KeepsOr.pure _

/-- The tasks that a recovery works on. -/
structure Recovering (ts : List DownloadTask) : Prop where
  ids : (ts.map (·.id)).Nodup
  stored : ∀ t ∈ ts, t.status ≠ .corrupted → t.Laid ∧ t.FitsIn exactBounds
  dirs : ∀ t ∈ ts, t.status ≠ .corrupted → ∀ u ∈ ts, u.status ≠ .corrupted → u.id ≠ t.id → t.DirsApart u

theorem Recovering.tail (h : Recovering (t :: ts)) : Recovering ts :=
  ⟨(List.nodup_cons.1 h.ids).2, fun u hu => h.stored u (List.mem_cons_of_mem _ hu),
    fun u hu hst v hv => h.dirs u (List.mem_cons_of_mem _ hu) hst v (List.mem_cons_of_mem _ hv)⟩

theorem DownloadTask.DirsApart.unowned (h : t.DirsApart u) (hn : SafeName n) : ¬ u.owns (joinPath t.tempDir n) := by
  rintro ⟨c, -, hpath⟩
  obtain ⟨hsafe, heq⟩ := chunkPath_ok hpath
  exact h.paths hn hsafe heq

/-- The recovery of the tasks after `t` leaves it and its part files alone. -/
theorem Recovering.spares (h : Recovering (t :: ts)) (hst : t.status ≠ .corrupted) :
    Keeps (Salvages d t) (recoverLoop env ts) := by
  rintro w ⟨u, hload, hsalvaged⟩
  have hne : ∀ v ∈ ts, v.id ≠ t.id := fun v hv heq => (List.nodup_cons.1 h.ids).1 (List.mem_map.2 ⟨v, hv, heq⟩)
  have hfiles : Keeps (fun w' : World => w'.disk.tasks t.id = w.disk.tasks t.id) (recoverLoop env ts) :=
    recoverLoop_keeps (other_rule t.id _) ts fun v hv hvst => ⟨(h.tail.stored v hv hvst).1, hne v hv⟩
  have hparts : ∀ n, SafeName n → (((recoverLoop env ts).run w).2).disk.parts (joinPath t.tempDir n) =
      w.disk.parts (joinPath t.tempDir n) := by
    intro n hn
    have hkept : Keeps (fun w' : World => w'.disk.parts (joinPath t.tempDir n) = w.disk.parts (joinPath t.tempDir n))
        (recoverLoop env ts) :=
      recoverLoop_parts ts fun v hv hvst =>
        (h.dirs t List.mem_cons_self hst v (List.mem_cons_of_mem _ hv) hvst (hne v hv)).unowned hn
    exact wp_const.1 (hkept w rfl)
  refine wp_const.2 ⟨u, ?_, hsalvaged.under hparts⟩
  rw [Disk.loadTask, wp_const.1 (hfiles w rfl)]
  exact hload

/-- A store of tasks as the program writes them, with numbers that JSON holds and temp directories apart. -/
structure World.Tidy (w : World) : Prop where
  named : w.Named
  versions : EachVersion (fun t => t.Laid ∧ t.FitsIn exactBounds) w
  dirs : ∀ id id' t u, w.disk.loadTask id = some t → w.disk.loadTask id' = some u → id' ≠ id → t.DirsApart u

theorem EachVersion.loads {P : DownloadTask → Prop} (h : EachVersion P w) {id : TaskId}
    (hload : w.disk.loadTask id = some t) : P t :=
  h.2 id t (load_spec hload)

theorem World.Tidy.listed (h : w.Tidy) (ht : t ∈ w.disk.loadAllTasks env scan) (hst : t.status ≠ .corrupted) :
    w.disk.loadTask t.id = some t := by
  obtain ⟨id, -, -, hload | ⟨-, rfl⟩⟩ := mem_loadAllTasks ht
  · rwa [h.named id t hload]
  · exact absurd rfl hst

/-- What a recovery saves are versions of this kind. -/
theorem recoverLoop_saves : ∀ ts :
    List DownloadTask, (∀ t ∈ ts, t.status ≠ .corrupted → t.Laid ∧ t.FitsIn exactBounds) →
    Keeps (fun w : World => SavesAre (·.FitsIn exactBounds) w.log) (recoverLoop env ts)
  | [], _ => KeepsOr.pure _
  | t :: ts, h => by
    have hrest : Keeps (fun w : World => SavesAre (·.FitsIn exactBounds) w.log) (recoverLoop env ts) :=
      recoverLoop_saves ts fun u hu => h u (List.mem_cons_of_mem _ hu)
    unfold recoverLoop
    split
    · exact hrest.bind fun _ => KeepsOr.pure _
    · intro w hw
      obtain ⟨hlaid, hfits⟩ := h t List.mem_cons_self ‹_›
      rw [wp_bind]
      refine wp_mono (wp_and (repairFromDisk_wp t w) (repairFromDisk_cuts hlaid.ownParts)) ?_
        (fun _ _ h => by rw [h.1.log]; exact hw) (fun _ h => by rw [h.1.log]; exact hw)
      rintro t' _ ⟨⟨w₁, hw₁, hrep, rfl⟩, hworked, hchunks, -⟩
      have hsalvaged : Salvaged w.disk t t' (t.cutParts w.disk t.chunks) := ⟨hworked, hchunks, fun _ _ => rfl⟩
      have hfits' : t'.FitsIn exactBounds := hsalvaged.fitsIn hfits
      have hnoted : SavesAre (·.FitsIn exactBounds) (w₁.noted t t').log := by
        rw [← hw₁.log] at hw
        unfold World.noted
        split
        · exact hw.quiet fun _ h => by cases h
        · exact hw
      have hsave : Keeps (fun w : World => SavesAre (·.FitsIn exactBounds) w.log) (saveTask env t') := fun w hw =>
        wp_saveTask (fun _ => hw.quiet fun u hu => by cases hu; exact hfits') (fun _ _ => hw) fun _ _ => hw
      exact (hsave.bind fun _ => hrest.bind fun _ => KeepsOr.pure _) _ hnoted

theorem World.Tidy.saves (h : w.Tidy) :
    wp (recoverTasks env scan) (fun _ w' => SavesAre (·.FitsIn exactBounds) w'.log)
      (fun _ w' => SavesAre (·.FitsIn exactBounds) w'.log)
      (fun w' => SavesAre (·.FitsIn exactBounds) w'.log) w := by
  unfold recoverTasks
  rw [wp_bind, wp_get]
  exact recoverLoop_saves _ (fun t ht hst => h.versions.loads (h.listed ht hst)) w fun t ht => (h.versions.1 t ht).2

/-! ## What waits to run -/

end Cget
