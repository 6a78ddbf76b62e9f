import Cget.JsonAcceptance
/-!
# Texts that are cut short

An object ends with its closing bracket, so of a printed object nothing shorter can be read,
the newline after it apart.
-/

namespace Cget

namespace Json

variable {s t w q : Text} {u v : Value} {o : List (Text × Value)} {indent : Int}

theorem blank_of_skip (h : skipWhitespace s = []) : Blank s := by
  obtain ⟨w, hw, hs⟩ := takeBlanks s
  rw [hs, h, List.append_nil]
  exact hw

/-- An object up to its bracket, and the blanks after it. What is read of such a text does not
depend on what follows the bracket. -/
theorem object_text (h : JsonText ScannedNumber t v) (ht : t.head? = some 123) :
    ∃ body w, t = body ++ [125] ++ w ∧ Blank w ∧ JsonText ScannedNumber (body ++ [125]) v ∧
      ∀ {n turns : Nat} {rest : Text}, 2 * (body ++ [125] ++ rest).length + 1 ≤ turns →
        parseValue n turns (body ++ [125] ++ rest) = .ok (v, rest) := by
  induction h with
  | null => cases ht
  | bool b => cases b <;> cases ht
  | number hs _ =>
    obtain ⟨c, r, hform, hc⟩ := scanned_head hs []
    rw [List.append_nil] at hform
    rw [hform] at ht
    cases ht
    rcases hc with hc | hc <;> cases hc
  | string _ => cases ht
  | emptyArray _ => cases ht
  | array _ _ => cases ht
  | @emptyObject w hw =>
    exact ⟨123 :: w, [], (List.append_nil _).symm, blank_nil, .emptyObject hw,
      fun hturns => emptyObject_complete hw (by omega)⟩
  | @object members o hne hkeys hvalues hfirst ih =>
    exact ⟨123 :: commas (members.map Member.text), [], (List.append_nil _).symm, blank_nil,
      .object hne hkeys hvalues hfirst,
      fun hturns => object_complete hne hkeys (fun m hm => (hvalues m hm).parses) hfirst hturns⟩
  | @blanks w s w' v hw hs hw' ih =>
    cases w with
    | cons c w =>
      cases ht
      exact absurd (hw 123 List.mem_cons_self) (by decide)
    | nil =>
      obtain ⟨w, c, r, rfl, -⟩ := hs.head
      have hhead : (w ++ c :: r).head? = some 123 := by
        cases w with
        | nil => exact ht
        | cons b w => exact ht
      obtain ⟨body, w₁, hform, hw₁, hbody, hread⟩ := ih hhead
      exact ⟨body, w₁ ++ w', by rw [hform]; simp, hw₁.append hw', hbody, hread⟩

/-- Whatever follows the text of an object in the text of a value is blank. -/
theorem blank_after_object (hs : parse s = .ok u) (hhead : s.head? = some 123) (hq : parse (s ++ q) = .ok v) :
    Blank q := by
  obtain ⟨body, w, rfl, -, -, hread⟩ := object_text (parse_iff.1 hs) hhead
  obtain ⟨⟨v', r⟩, hvalue, hend⟩ := bind_ok hq
  rw [parseValue_congr (skipWhitespace_idem _), List.append_assoc _ w q, hread le_rfl] at hvalue
  cases hvalue
  dsimp only at hend
  split at hend
  · rename_i hskip
    intro b hb
    exact blank_of_skip hskip b (List.mem_append_right _ hb)
  · cases hend

theorem skip_reverse (s : Text) (hw : Blank w) : skipWhitespace (s ++ [125] ++ w).reverse = 125 :: s.reverse := by
  have hblank : Blank w.reverse := fun b hb => hw b (List.mem_reverse.1 hb)
  rw [List.reverse_append, skip_blanks hblank, List.reverse_append]
  rfl

/-- The blanks after an object can be left out. -/
theorem parse_trimmed (h : parse (s ++ [125] ++ w) = .ok v) (hw : Blank w) (hhead : (s ++ [125]).head? = some 123) :
    parse (s ++ [125]) = .ok v := by
  obtain ⟨body, w', hform, hw', hbody, -⟩ := object_text (parse_iff.1 h) (by rw [List.head?_append, hhead]; rfl)
  -- Both brackets are the last byte that is no blank.
  have hsame : 125 :: s.reverse = 125 :: body.reverse := by rw [← skip_reverse s hw, hform, skip_reverse body hw']
  rw [List.reverse_injective (List.cons.inj hsame).2]
  exact parse_iff.2 hbody

/-- A printed object that is cut short is read only if nothing but the newline is missing. -/
theorem parse_take_iff (hv : parse (stringify (.object o) indent) = .ok v) (k : Nat) :
    parse ((stringify (.object o) indent).take k) = .ok u ↔ (stringify (.object o) indent).length ≤ k + 1 ∧ u = v := by
  obtain ⟨r, hform⟩ : ∃ r, stringify (.object o) indent = 123 :: r ++ [125] ++ [10] := by
    cases o with
    | nil => exact ⟨[], rfl⟩
    | cons m ms => exact ⟨_, rfl⟩
  rw [hform] at hv ⊢
  have hnewline : Blank [10] := fun b hb => List.mem_singleton.1 hb ▸ rfl
  have htrimmed := parse_trimmed hv hnewline rfl
  have hlength : (123 :: r ++ [125] ++ [10]).length = r.length + 3 := by simp
  rw [hlength]
  rcases Nat.lt_or_ge (r.length + 2) k with hall | hcut
  · rw [List.take_of_length_le (by rw [hlength]; omega), hv, Except.ok.injEq]
    exact ⟨fun h => ⟨by omega, h.symm⟩, fun h => h.2.symm⟩
  rw [List.take_append_of_le_length (by simpa using hcut)]
  rcases hcut.eq_or_lt with rfl | hcut
  · rw [List.take_of_length_le (by simp), htrimmed, Except.ok.injEq]
    exact ⟨fun h => ⟨by omega, h.symm⟩, fun h => h.2.symm⟩
  · -- What is missing ends with the bracket, and what follows an object is blank.
    refine iff_of_false (fun h => ?_) (by omega)
    obtain ⟨q, hq, hlast⟩ : ∃ q, (123 :: r ++ [125]).take k ++ q = 123 :: r ++ [125] ∧ (125 : UInt8) ∈ q := by
      refine ⟨(123 :: r ++ [125]).drop k, List.take_append_drop k _, ?_⟩
      have hdrop : (123 :: r ++ [125]).drop k = (123 :: r).drop k ++ [125] :=
        List.drop_append_of_le_length (by simp; omega)
      rw [hdrop]
      exact List.mem_append_right _ List.mem_cons_self
    have hhead : ((123 :: r ++ [125]).take k).head? = some 123 := by
      cases k with
      | zero => cases h
      | succ k => rfl
    rw [← hq] at htrimmed
    exact absurd (blank_after_object h hhead htrimmed 125 hlast) (by decide)

end Json

end Cget
