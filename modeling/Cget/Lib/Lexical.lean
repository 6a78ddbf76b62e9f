import Mathlib.Data.List.DropRight
/-!
# Lexical paths

A path is a text over any alphabet, cut into components at one sign. Empty components and the
component of a single dot add nothing, the component of two dots leads back up. What lies below
what is decided on the texts alone: links are not followed.
-/

namespace Lexical

/-- The two signs with a meaning of their own. -/
structure Signs (α : Type*) where
  slash : α
  dot : α
  ne : slash ≠ dot

namespace Signs

variable {α : Type*} [DecidableEq α] (S : Signs α) {a b c p q dir name : List α}

/-- An absolute right operand replaces the left one. -/
def join (a b : List α) : List α :=
  if b.head? = some S.slash then b
  else if a = [] ∨ a.getLast? = some S.slash then a ++ b
  else a ++ S.slash :: b

def Absolute (p : List α) : Prop := p.head? = some S.slash

instance : Decidable (S.Absolute p) := inferInstanceAs (Decidable (_ = _))

/-- A component that adds something. -/
def counts (c : List α) : Bool := c ≠ [] ∧ c ≠ [S.dot]

def parts (p : List α) : List (List α) := (p.splitOn S.slash).filter S.counts

def up : List α := [S.dot, S.dot]

/-- Some component leads up. -/
def Climbs (p : List α) : Prop := S.up ∈ p.splitOn S.slash

instance : Decidable (S.Climbs p) := inferInstanceAs (Decidable (_ ∈ _))

/-- The components go on where those of `dir` end, and no further one leads up. -/
structure Below (dir p : List α) : Prop where
  root : S.Absolute p ↔ S.Absolute dir
  rest : ∃ rest, rest ≠ [] ∧ S.up ∉ rest ∧ S.parts p = S.parts dir ++ rest

/-- What remains of `p` behind as many components as `dir` has. -/
def remainder (dir p : List α) : List (List α) := (S.parts p).drop (S.parts dir).length

theorem below_iff : S.Below dir p ↔ (S.Absolute p ↔ S.Absolute dir) ∧ S.remainder dir p ≠ [] ∧
    S.up ∉ S.remainder dir p ∧ S.parts p = S.parts dir ++ S.remainder dir p := by
  constructor
  · rintro ⟨hroot, rest, hrest, hup, hparts⟩
    have hremainder : S.remainder dir p = rest := by rw [remainder, hparts, List.drop_left]
    rw [hremainder]
    exact ⟨hroot, hrest, hup, hparts⟩
  · rintro ⟨hroot, hrest, hup, hparts⟩
    exact ⟨hroot, _, hrest, hup, hparts⟩

instance : Decidable (S.Below dir p) := decidable_of_iff' _ S.below_iff

/-! ## Components -/

@[simp] theorem counts_up : S.counts S.up = true := by simp [counts, up]

@[simp] theorem parts_nil : S.parts [] = [] := by simp [parts, counts]

theorem parts_append_slash (a b : List α) : S.parts (a ++ S.slash :: b) = S.parts a ++ S.parts b := by
  rw [parts, List.splitOn_append_cons_self, List.filter_append]
  rfl

@[simp] theorem parts_slash : S.parts [S.slash] = [] := by
  simpa using S.parts_append_slash [] []

/-- Slashes at the end add nothing. -/
theorem parts_ended (h : a.getLast? = some S.slash) (b : List α) : S.parts (a ++ b) = S.parts a ++ S.parts b := by
  obtain ⟨init, rfl⟩ := List.getLast?_eq_some_iff.1 h
  rw [List.append_assoc, List.singleton_append, parts_append_slash, parts_append_slash, parts_nil, List.append_nil]

theorem parts_name (hslash : S.slash ∉ name) (hcounts : S.counts name = true) : S.parts name = [name] := by
  rw [parts, List.splitOn_eq_singleton hslash, List.filter_cons_of_pos hcounts, List.filter_nil]

theorem climbs_iff : S.Climbs p ↔ S.up ∈ S.parts p := by
  rw [Climbs, parts, List.mem_filter, counts_up, eq_self, and_true]

/-- The components without the slashes at the end. -/
theorem parts_trimmed (a : List α) : S.parts (a.rdropWhile (· = S.slash)) = S.parts a := by
  induction a using List.reverseRecOn with
  | nil => simp
  | append_singleton a c ih =>
    by_cases hc : c = S.slash
    · subst hc
      rw [List.rdropWhile_concat_pos (fun x => decide (x = S.slash)) a _ (decide_eq_true rfl), ih, parts_append_slash,
        parts_nil, List.append_nil]
    · rw [List.rdropWhile_concat_neg (fun x => decide (x = S.slash)) a c (by simpa using hc)]

/-! ## One file -/

/-- The two paths have the same components and the same start. -/
def Same (p q : List α) : Prop := (S.Absolute p ↔ S.Absolute q) ∧ S.parts p = S.parts q

instance : Decidable (S.Same p q) := inferInstanceAs (Decidable (_ ∧ _))

variable {S} in
@[simp] theorem Same.refl : S.Same p p := ⟨Iff.rfl, rfl⟩

variable {S} in
theorem Same.symm (h : S.Same p q) : S.Same q p := ⟨h.1.symm, h.2.symm⟩

variable {S} in
theorem Same.trans {r : List α} (h : S.Same p q) (h' : S.Same q r) : S.Same p r := ⟨h.1.trans h'.1, h.2.trans h'.2⟩

/-- The last component with its slash cut off, and what stands before. -/
theorem last_component (p : List α) :
    S.slash ∉ p ∨ ∃ init last, S.slash ∉ last ∧ p = init ++ S.slash :: last := by
  induction p with
  | nil => exact .inl List.not_mem_nil
  | cons x p ih =>
    rcases ih with hnone | ⟨init, last, hlast, rfl⟩
    · by_cases hx : x = S.slash
      · exact .inr ⟨[], p, hnone, by rw [hx, List.nil_append]⟩
      · exact .inl fun hmem => (List.mem_cons.1 hmem).elim (fun h => hx h.symm) hnone
    · exact .inr ⟨x :: init, last, hlast, rfl⟩

theorem parts_suffixed {suffix : List α} (hslash : S.slash ∉ suffix) (hlength : 2 ≤ suffix.length) (hp : S.slash ∉ p) :
    S.parts (p ++ suffix) = [p ++ suffix] := by
  refine S.parts_name (by simp [hp, hslash]) ?_
  have hlong : 2 ≤ (p ++ suffix).length := by rw [List.length_append]; omega
  simp only [counts, decide_eq_true_eq]
  refine ⟨fun h => ?_, fun h => ?_⟩
  · simp [h] at hlong
  · simp [h] at hlong

/-- What a suffix without slashes makes of the components. -/
theorem parts_append {suffix : List α} (hslash : S.slash ∉ suffix) (hlength : 2 ≤ suffix.length) (p : List α) :
    ∃ init last, S.slash ∉ last ∧ S.parts p = init ++ S.parts last ∧
    S.parts (p ++ suffix) = init ++ [last ++ suffix] := by
  rcases S.last_component p with hp | ⟨init, last, hlast, rfl⟩
  · exact ⟨[], p, hp, rfl, S.parts_suffixed hslash hlength hp⟩
  · refine ⟨S.parts init, last, hlast, S.parts_append_slash init last, ?_⟩
    rw [List.append_assoc, List.cons_append, parts_append_slash, S.parts_suffixed hslash hlength hlast]

/-- A longer last component names another file. -/
theorem not_same_append {suffix : List α} (hslash : S.slash ∉ suffix) (hlength : 2 ≤ suffix.length) (p : List α) :
    ¬ S.Same (p ++ suffix) p := by
  rintro ⟨-, hparts⟩
  obtain ⟨init, last, hlast, hp, hlong⟩ := S.parts_append hslash hlength p
  rw [hp, hlong] at hparts
  have hself : S.parts last ⊆ [last] := by
    rw [parts, List.splitOn_eq_singleton hlast]
    exact List.filter_sublist.subset
  have hmem := hself (List.append_cancel_left hparts ▸ List.mem_cons_self : last ++ suffix ∈ S.parts last)
  have := congrArg List.length (List.mem_singleton.1 hmem)
  rw [List.length_append] at this
  omega

omit [DecidableEq α] in
theorem absolute_append {suffix : List α} (hslash : S.slash ∉ suffix) (p : List α) :
    S.Absolute (p ++ suffix) ↔ S.Absolute p := by
  cases p with
  | nil =>
    refine iff_of_false (fun h => hslash (List.mem_of_mem_head? h)) ?_
    simp [Absolute]
  | cons x p => rfl

/-- Files that differ keep differing under the same suffix. -/
theorem Same.of_append {suffix : List α} (hslash : S.slash ∉ suffix) (hlength : 2 ≤ suffix.length)
    (h : S.Same (p ++ suffix) (q ++ suffix)) : S.Same p q := by
  obtain ⟨habs, hparts⟩ := h
  rw [S.absolute_append hslash, S.absolute_append hslash] at habs
  obtain ⟨init, last, -, hp, hplong⟩ := S.parts_append hslash hlength p
  obtain ⟨init', last', -, hq, hqlong⟩ := S.parts_append hslash hlength q
  rw [hplong, hqlong] at hparts
  obtain ⟨rfl, hlast⟩ := List.append_inj' hparts rfl
  obtain rfl := List.append_cancel_right (List.singleton_inj.1 hlast)
  exact ⟨habs, hp.trans hq.symm⟩

/-! ## Joining -/

theorem join_absolute (h : S.Absolute b) : S.join a b = b := if_pos h

theorem absolute_join (h : ¬ S.Absolute b) : S.Absolute (S.join a b) ↔ S.Absolute a := by
  have hb : b.head? ≠ some S.slash := h
  rw [join, if_neg hb]
  cases a with
  | nil => simpa [Absolute] using hb
  | cons x a => split <;> simp [Absolute]

theorem parts_join (h : ¬ S.Absolute b) : S.parts (S.join a b) = S.parts a ++ S.parts b := by
  have hb : b.head? ≠ some S.slash := h
  rw [join, if_neg hb]
  split
  · rename_i hend
    rcases hend with rfl | hend
    · simp
    · exact S.parts_ended hend b
  · exact S.parts_append_slash a b

/-! ## Below -/

/-- A path joined to a directory lies below it as soon as it has a component. -/
theorem below_join_iff (habsolute : ¬ S.Absolute b) (hclimbs : ¬ S.Climbs b) :
    S.Below a (S.join a b) ↔ S.parts b ≠ [] := by
  rw [climbs_iff] at hclimbs
  constructor
  · rintro ⟨-, rest, hrest, -, hparts⟩
    rw [parts_join S habsolute, List.append_cancel_left_eq] at hparts
    exact hparts ▸ hrest
  · intro h
    exact ⟨S.absolute_join habsolute, S.parts b, h, hclimbs, S.parts_join habsolute⟩

variable {S}

theorem Below.trans (hp : S.Below dir p) (hq : S.Below p q) : S.Below dir q := by
  obtain ⟨r, hr, hup, hparts⟩ := hp.rest
  obtain ⟨s, -, hups, hpartss⟩ := hq.rest
  refine ⟨hq.root.trans hp.root, r ++ s, by simp [hr], ?_, by rw [hpartss, hparts, List.append_assoc]⟩
  simp [hup, hups]

/-- A directory that does not lead up has only such paths below it. -/
theorem Below.not_climbs (h : S.Below dir p) (hdir : ¬ S.Climbs dir) : ¬ S.Climbs p := by
  obtain ⟨rest, -, hup, hparts⟩ := h.rest
  rw [S.climbs_iff] at hdir ⊢
  simp [hparts, hdir, hup]

/-- Another last component leads to no other directory. -/
theorem Below.sibling {init : List (List α)} (h : S.Below dir p) (hroot : S.Absolute q ↔ S.Absolute p)
    (hp : S.parts p = init ++ [a]) (hq : S.parts q = init ++ [b]) (hb : b ≠ S.up) : S.Below dir q := by
  obtain ⟨rest, hrest, hup, hparts⟩ := h.rest
  rcases List.eq_nil_or_concat' rest with rfl | ⟨more, last, rfl⟩
  · exact absurd rfl hrest
  · rw [hp, ← List.append_assoc] at hparts
    obtain ⟨rfl, -⟩ := List.append_inj' hparts rfl
    refine ⟨hroot.trans h.root, more ++ [b], by simp, ?_, by rw [hq, List.append_assoc]⟩
    simp only [List.mem_append, List.mem_singleton, not_or] at hup ⊢
    exact ⟨hup.1, hb.symm⟩

end Signs

end Lexical
