import Cget.Containment
import Cget.JsonRoundTrip
import Cget.Unforced
/-!
# Remote names

A file name that a server chose becomes a single component, and the output path of a task
without one of its own stays below `downloads`, through the directory of the same name and
through the renaming loop.
-/

namespace Cget

variable {env : Env} {places : Places} {name dir p : Path} {force : Bool}

/-! ## Plain names -/

/-- A single component that has no sign of its own on any system and leads nowhere else. -/
structure PlainName (name : Text) : Prop where
  signs : ∀ c ∈ name, c ≠ 47 ∧ c ≠ 92 ∧ 32 ≤ c
  nonempty : name ≠ []
  notDot : name ≠ text "."
  notUp : name ≠ text ".."

theorem plain_download : PlainName (text "download") := ⟨by decide +kernel, by decide, by decide, by decide⟩

theorem PlainName.of_safe (hsigns : ∀ c ∈ name, c ≠ 47 ∧ c ≠ 92 ∧ 32 ≤ c) (hsafe : unsafeName name ≠ true) :
    PlainName name := by
  simp only [unsafeName, ne_eq, Bool.or_eq_true, decide_eq_true_eq, not_or] at hsafe
  exact ⟨hsigns, hsafe.1.1, hsafe.1.2, hsafe.2⟩

/-- Whatever the name was. -/
theorem plain_sanitizeFileName (name : Text) : PlainName (sanitizeFileName name) := by
  unfold sanitizeFileName
  split
  · exact plain_download
  · dsimp only
    split
    · exact plain_download
    · rename_i hsafe
      refine .of_safe (fun c hc => ?_) hsafe
      obtain ⟨b, -, rfl⟩ := List.mem_map.1 hc
      split
      · decide
      · rename_i hb
        simp only [not_or, UInt8.not_lt] at hb
        exact hb

theorem plain_fileNameFromUrl (url : Text) : PlainName (fileNameFromUrl url) := plain_sanitizeFileName _

theorem PlainName.slash (h : PlainName name) : posix.slash ∉ name := fun hc => (h.signs _ hc).1 rfl

theorem PlainName.parts (h : PlainName name) : posix.parts name = [name] := by
  refine posix.parts_name h.slash ?_
  simp only [Lexical.Signs.counts, decide_eq_true_eq]
  exact ⟨h.nonempty, h.notDot⟩

theorem PlainName.relative (h : PlainName name) : ¬ posix.Absolute name :=
  fun habsolute => h.slash (List.mem_of_mem_head? habsolute)

theorem PlainName.not_climbs (h : PlainName name) : ¬ posix.Climbs name := by
  rw [Lexical.Signs.climbs_iff, h.parts, List.mem_singleton]
  exact h.notUp.symm

/-- A plain name leads one directory down. -/
theorem PlainName.below (h : PlainName name) (dir : Path) : posix.Below dir (posix.join dir name) :=
  (posix.below_join_iff h.relative h.not_climbs).2 (by rw [h.parts]; simp)

theorem PlainName.parts_join (h : PlainName name) (dir : Path) :
    posix.parts (posix.join dir name) = posix.parts dir ++ [name] := by
  rw [Lexical.Signs.parts_join _ h.relative, h.parts]

/-! ## The directory of a path -/

theorem PlainName.join_eq (h : PlainName name) (hdir : dir ≠ []) : ∃ x, posix.join dir name = x ++ 47 :: name := by
  have hhead : name.head? ≠ some posix.slash := h.relative
  rw [Lexical.Signs.join, if_neg hhead]
  split
  · rename_i hend
    obtain ⟨x, rfl⟩ := List.getLast?_eq_some_iff.1 (hend.resolve_left hdir)
    exact ⟨x, by simp; rfl⟩
  · exact ⟨dir, rfl⟩

theorem fileNameOf_append (x : Path) (h : (47 : UInt8) ∉ name) : fileNameOf (x ++ 47 :: name) = name := by
  rw [fileNameOf, List.splitOn_append_cons_self, List.splitOn_eq_singleton h]
  simp

/-- The slashes between the directory and the name add nothing. -/
theorem parentPath_append (x : Path) (h : (47 : UInt8) ∉ name) :
    posix.parts (parentPath (x ++ 47 :: name)) = posix.parts x ∧
      (posix.Absolute (parentPath (x ++ 47 :: name)) ↔ posix.Absolute (x ++ 47 :: name)) := by
  have htake : (x ++ 47 :: name).take ((x ++ 47 :: name).length - name.length) = x ++ [47] := by
    rw [show x ++ 47 :: name = (x ++ [47]) ++ name by simp, List.length_append, Nat.add_sub_cancel, List.take_left]
  have hparts : posix.parts (x ++ [47]) = posix.parts x := by
    rw [show x ++ [47] = x ++ posix.slash :: [] from rfl, Lexical.Signs.parts_append_slash, Lexical.Signs.parts_nil,
      List.append_nil]
  have hhead : (x ++ 47 :: name).head? = (x ++ [47]).head? := by cases x <;> rfl
  unfold parentPath
  rw [fileNameOf_append x h, htake]
  dsimp only
  split
  · rename_i hall
    have hslashes : (x ++ [47]).rdropWhile (· = posix.slash) = [] := by
      rw [List.rdropWhile_eq_nil_iff]
      exact List.all_eq_true.1 hall.2
    have hnone : posix.parts x = [] := by
      rw [← hparts, ← Lexical.Signs.parts_trimmed, hslashes, Lexical.Signs.parts_nil]
    rw [hnone]
    refine ⟨posix.parts_slash, iff_of_true rfl ?_⟩
    obtain ⟨c, hc⟩ : ∃ c, (x ++ [47]).head? = some c := Option.isSome_iff_exists.1 (by simp)
    rw [Lexical.Signs.Absolute, hhead, hc]
    exact congrArg some (of_decide_eq_true (List.all_eq_true.1 hall.2 c (List.mem_of_mem_head? hc)))
  · rename_i hsome
    have hkept : (x ++ [47]).rdropWhile (· = posix.slash) ≠ [] := by
      intro hnil
      rw [List.rdropWhile_eq_nil_iff] at hnil
      exact hsome ⟨by simp, List.all_eq_true.2 hnil⟩
    have htrimmed : ((x ++ [47]).reverse.dropWhile (· = 47)).reverse = (x ++ [47]).rdropWhile (· = posix.slash) := rfl
    rw [htrimmed]
    refine ⟨(posix.parts_trimmed _).trans hparts, ?_⟩
    obtain ⟨slashes, hslashes⟩ : (x ++ [47]).rdropWhile (· = posix.slash) <+: x ++ [47] := List.rdropWhile_prefix _ _
    have hfirst : (x ++ [47]).head? = ((x ++ [47]).rdropWhile (· = posix.slash)).head? := by
      rw [← List.head?_append_of_ne_nil _ hkept, hslashes]
    rw [Lexical.Signs.Absolute, Lexical.Signs.Absolute, hhead, hfirst]

/-! ## The renaming loop -/

theorem splitExtension_append (name : Path) : (splitExtension name).1 ++ (splitExtension name).2 = name := by
  unfold splitExtension
  split
  · exact List.append_nil name
  · dsimp only
    split
    · exact List.append_nil name
    · exact List.take_append_drop _ name

def candidateName (name : Path) (index : Nat) : Path :=
  (splitExtension name).1 ++ text " (" ++ decimal index ++ text ")" ++ (splitExtension name).2

/-- The number stands in brackets before the extension. -/
theorem PlainName.candidate (h : PlainName name) (index : Nat) : PlainName (candidateName name index) := by
  have hbracket : (40 : UInt8) ∈ candidateName name index := by
    unfold candidateName
    simp [show (40 : UInt8) ∈ text " (" by decide]
  have hne : ∀ other : Text, (40 : UInt8) ∉ other → candidateName name index ≠ other := fun other hother heq =>
    hother (heq ▸ hbracket)
  refine ⟨fun c hc => ?_, hne _ (by decide), hne _ (by decide), hne _ (by decide)⟩
  have hname := splitExtension_append name
  simp only [candidateName, List.mem_append] at hc
  rcases hc with (((hc | hc) | hc) | hc) | hc
  · exact h.signs c (hname ▸ List.mem_append_left _ hc)
  · revert c
    decide +kernel
  · have hdigit := Json.isDigit_decimal index c hc
    simp only [Json.isDigit, Bool.and_eq_true, decide_eq_true_eq] at hdigit
    refine ⟨?_, ?_, ?_⟩
    · rintro rfl
      exact absurd hdigit.1 (by decide)
    · rintro rfl
      exact absurd hdigit.2 (by decide)
    · exact UInt8.le_trans (by decide) hdigit.1
  · revert c
    decide +kernel
  · exact h.signs c (hname ▸ List.mem_append_right _ hc)

/-- A candidate stands beside the path it replaces. -/
theorem PlainName.candidate_below (h : PlainName name) (hdir : dir ≠ []) {root : Path}
    (hbelow : posix.Below root (posix.join dir name)) (index : Nat) :
    posix.Below root (candidatePath (posix.join dir name) index) := by
  obtain ⟨x, hx⟩ := h.join_eq hdir
  rw [hx] at hbelow ⊢
  obtain ⟨hparts, hroot⟩ := parentPath_append x h.slash
  have hcandidate : candidatePath (x ++ 47 :: name) index =
      posix.join (parentPath (x ++ 47 :: name)) (candidateName name index) := by
    unfold candidatePath
    rw [fileNameOf_append x h.slash]
    rfl
  have hplain := h.candidate index
  have hname : posix.parts (x ++ 47 :: name) = posix.parts x ++ [name] := by
    rw [← h.parts]
    exact posix.parts_append_slash x name
  rw [hcandidate]
  refine hbelow.sibling ((posix.absolute_join hplain.relative).trans hroot) hname ?_ hplain.notUp
  rw [hplain.parts_join, hparts]

theorem uniqueLoop_candidate {taken : Path → Bool} {path : Path} : ∀ (rounds index : Nat),
    uniqueLoop taken path rounds index = .ok p → ∃ index, p = candidatePath path index
  | 0, _, h => by cases h
  | rounds + 1, index, h => by
    unfold uniqueLoop at h
    split at h
    · exact uniqueLoop_candidate rounds (index + 1) h
    · cases h
      exact ⟨index, rfl⟩

/-- The chosen path is the one asked for, or one of its candidates. -/
theorem chooseTarget_cases {taken : Path → Bool} {path : Path} (h : chooseTarget taken path force = .ok p) :
    p = path ∨ ∃ index, p = candidatePath path index := by
  unfold chooseTarget at h
  split at h
  · exact .inr (uniqueLoop_candidate _ _ h)
  · cases h
    exact .inl rfl

/-! ## The output path of a task without one -/

/-- The file below `downloads`, or a file of this name in the directory of this name. -/
theorem requestedTarget_cases {d : Disk} {target : Path} {fileName : Text} (hhome : isAbsolute env.appHome = true)
    (h : requestedTarget env places d none fileName = .ok target) :
    ∃ dir, dir ≠ [] ∧ target = posix.join dir (sanitizeFileName fileName) ∧
      (dir = downloadsDir env ∨ posix.Below (downloadsDir env) dir) := by
  have hplain := plain_sanitizeFileName fileName
  have hroot : isAbsolute (downloadsDir env) = true :=
    isAbsolute_iff.2 ((posix.absolute_join (by decide)).2 (isAbsolute_iff.1 hhome))
  have hne : ∀ {dir : Path}, isAbsolute dir = true → dir ≠ [] := by
    rintro dir habsolute rfl
    cases habsolute
  have hjoined : ∀ {dir : Path}, isAbsolute dir = true → isAbsolute (joinPath dir (sanitizeFileName fileName)) = true :=
    fun habsolute => isAbsolute_iff.2 ((posix.absolute_join hplain.relative).2 (isAbsolute_iff.1 habsolute))
  unfold requestedTarget at h
  dsimp only [Option.getD_none] at h
  by_cases hclimbs : isPathTraversal (joinPath (downloadsDir env) (sanitizeFileName fileName)) = true
  · rw [if_pos hclimbs] at h
    cases h
  · rw [if_neg hclimbs] at h
    by_cases hinto : fileNameOf (joinPath (downloadsDir env) (sanitizeFileName fileName)) = [] ∨
        places.exists_ d (joinPath (downloadsDir env) (sanitizeFileName fileName)) = true ∧
          places.isDirectory (joinPath (downloadsDir env) (sanitizeFileName fileName)) = true
    · simp only [if_pos hinto, if_pos (hjoined (hjoined hroot)), Except.ok.injEq] at h
      exact ⟨_, hne (hjoined hroot), h.symm, .inr (hplain.below _)⟩
    · simp only [if_neg hinto, if_pos (hjoined hroot), Except.ok.injEq] at h
      exact ⟨_, hne hroot, h.symm, .inl rfl⟩

theorem resolveOutputPath_ok {fileName : Text} {w w' : World}
    (hrun : (resolveOutputPath env places none fileName force).run w = (.ok p, w')) :
    w'.disk = w.disk ∧ ∃ target, requestedTarget env places w.disk none fileName = .ok target ∧
      chooseTarget (places.exists_ w.disk) target force = .ok p := by
  let q : CreateTaskRequest := { url := [], fileName := some fileName, forceOverwrite := force }
  have hq : (resolveOutputPath env places q.outputPath q.name q.forceOverwrite).run w = (.ok p, w') := hrun
  obtain ⟨hstore, hresolved⟩ := (Prog.wp_of_ok hq).1 (resolveOutputPath_wp .refl)
  refine ⟨hstore.disk, ?_⟩
  unfold CreateTaskRequest.resolved at hresolved
  cases htarget : requestedTarget env places w.disk q.outputPath q.name with
  | error e =>
    rw [htarget] at hresolved
    cases hresolved
  | ok target =>
    rw [htarget] at hresolved
    exact ⟨target, htarget, hresolved⟩

/-- Remote names choose no directory: they are plain, and what is resolved without an output path
lies below `downloads`, leads nowhere up, and is free unless overwriting is forced. -/
theorem remote_names_contained :
    (∀ url, PlainName (fileNameFromUrl url)) ∧
    ∀ (env : Env) (places : Places) (fileName : Text) (force : Bool) (w w' : World) (p : Path),
      isAbsolute env.appHome = true → isPathTraversal env.appHome = false →
      (resolveOutputPath env places none fileName force).run w = (.ok p, w') →
      posix.Below (downloadsDir env) p ∧ isPathTraversal p = false ∧
      (force = false → places.exists_ w'.disk p = false) := by
  refine ⟨plain_fileNameFromUrl, fun env places fileName force w w' p hhome hup hrun => ?_⟩
  obtain ⟨hdisk, target, htarget, hchosen⟩ := resolveOutputPath_ok hrun
  obtain ⟨dir, hdir, rfl, hwhere⟩ := requestedTarget_cases hhome htarget
  have hplain := plain_sanitizeFileName fileName
  have hbelow : posix.Below (downloadsDir env) (posix.join dir (sanitizeFileName fileName)) := by
    rcases hwhere with rfl | hlower
    · exact hplain.below _
    · exact hlower.trans (hplain.below dir)
  have hchosenBelow : posix.Below (downloadsDir env) p := by
    rcases chooseTarget_cases hchosen with rfl | ⟨index, rfl⟩
    · exact hbelow
    · exact hplain.candidate_below hdir hbelow index
  have hclimbs : ¬ posix.Climbs (downloadsDir env) := by
    have hhomeUp : ¬ posix.Climbs env.appHome := fun h => by
      rw [isPathTraversal_iff.2 h] at hup
      cases hup
    exact Lexical.Signs.Below.not_climbs ((posix.below_join_iff (by decide) (by decide)).2 (by decide)) hhomeUp
  refine ⟨hchosenBelow, ?_, ?_⟩
  · exact Bool.eq_false_iff.2 (isPathTraversal_iff.not.2 (hchosenBelow.not_climbs hclimbs))
  · rintro rfl
    rw [hdisk]
    exact chooseTarget_free hchosen

/-- `a.txt` exists, so a second one gets a number. -/
theorem remote_names_contained_second :
    let env : Env := { protocol := .silent }
    let places : Places := { generatedId := text "b" }
    let w : World :=
      { disk := { out := Function.update (fun _ => none) (text "/home/user/.cget/downloads/a.txt") (some []) } }
    let p := text "/home/user/.cget/downloads/a (1).txt"
    ∃ w', (resolveOutputPath env places none (text "a.txt") false).run w = (.ok p, w') ∧
    posix.Below (downloadsDir env) p ∧
      isPathTraversal p = false ∧ places.exists_ w'.disk p = false := by
  intro env places w p
  have hchosen : ((resolveOutputPath env places none (text "a.txt") false).run w).1 = .ok p := by decide +kernel
  rcases hrun : (resolveOutputPath env places none (text "a.txt") false).run w with ⟨result, w'⟩
  rw [hrun] at hchosen
  dsimp only at hchosen
  subst hchosen
  obtain ⟨hbelow, hup, hfree⟩ :=
    remote_names_contained.2 env places (text "a.txt") false w w' p rfl (by decide +kernel) hrun
  exact ⟨w', rfl, hbelow, hup, hfree rfl⟩

end Cget
