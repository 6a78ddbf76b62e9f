import Cget.JsonPrinted
/-!
# Exact documents

What a JSON text says before its numbers are rounded: the grammar of `JsonGrammar`, with each
number the rational its digits stand for. `parse` returns this document with every number
rounded to a double.
-/

namespace Cget

namespace Json

/-- The number a text stands for, not rounded. -/
def numeral (s : Text) : Rat :=
  let negative := s.head? = some 45
  let s := if negative then s.tail else s
  let int := s.takeWhile isDigit
  let s := s.dropWhile isDigit
  let frac := if s.head? = some 46 then s.tail.takeWhile isDigit else []
  let s := if s.head? = some 46 then s.tail.dropWhile isDigit else s
  let exp := if s = [] then 0 else exponentOf s.tail
  let exact := natOf (int ++ frac) * pow10 (exp - frac.length)
  if negative then -exact else exact

/-- The double next to a number of either sign. -/
def asDouble (q : Rat) : Rat := if q < 0 then -Binary64.nearest (-q) else Binary64.nearest q

/-- What a text denotes whose numbers are in the range of doubles, its numbers exact. -/
inductive ExactText : Text → Value → Prop
  | null : ExactText (Cget.text "null") .null
  | bool (b : Bool) : ExactText (if b then Cget.text "true" else Cget.text "false") (.bool b)
  | number {s : Text} {d : Rat} : ScannedNumber s → stod s = .ok d → ExactText s (.number (numeral s))
  | string {s t : Text} : Chars s t → ExactText (34 :: s ++ [34]) (.string t)
  | emptyArray {w : Text} : Blank w → ExactText (91 :: w ++ [93]) (.array [])
  | array {items : List (Text × Value)} : items ≠ [] → (∀ p ∈ items, ExactText p.1 p.2) →
      ExactText (91 :: commas (items.map (·.1)) ++ [93]) (.array (items.map (·.2)))
  | emptyObject {w : Text} : Blank w → ExactText (123 :: w ++ [125]) (.object [])
  | object {members : List Member} {o : List (Text × Value)} : members ≠ [] → (∀ m ∈ members, KeyText m.keyText m.key) →
      (∀ m ∈ members, ExactText m.valueText m.value) → FirstOf (members.map fun m => (m.key, m.value)) o →
      ExactText (123 :: commas (members.map (·.text)) ++ [125]) (.object o)
  | blanks {w s w' : Text} {v : Value} : Blank w → ExactText s v → Blank w' → ExactText (w ++ s ++ w') v

variable {s t : Text} {v : Value} {f : Rat → Rat}

/-! ## Rounding -/

/-- `stod` rounds what the digits stand for. -/
theorem stod_asDouble {d : Rat} (h : stod s = .ok d) : d = asDouble (numeral s) := by
  -- The last steps of both, on any sign and any number read.
  have last : ∀ (negative none range : Prop) [Decidable negative] [Decidable none] [Decidable range]
      (q : Rat) (e : Exn), 0 ≤ q → (if none then .error e else if range then .error e
        else .ok (if negative then -Binary64.nearest q else Binary64.nearest q)) = Except.ok d →
      d = asDouble (if negative then -q else q) := by
    intro negative none range _ _ _ q e hq h
    split at h
    · cases h
    split at h
    · cases h
    cases h
    split
    · rcases hq.eq_or_lt with rfl | hpos
      · simp [asDouble, Binary64.nearest]
      · rw [asDouble, if_pos (neg_neg_of_pos hpos), neg_neg]
    · rw [asDouble, if_neg (not_lt.2 hq)]
  exact last _ _ _ _ _ (mul_nonneg (Nat.cast_nonneg _) (pow10_pos _).le) h

/-! ## Objects -/

theorem find_mapMembers (key : Text) (o : List (Text × Value)) :
    find key (mapMembers f o) = (find key o).map (·.mapNumbers f) := by
  induction o with
  | nil => rfl
  | cons p o ih =>
    obtain ⟨k, u⟩ := p
    rw [mapMembers, find, find]
    split
    · rfl
    · exact ih

/-- The first of several entries is the first of the rounded ones. -/
theorem FirstOf.mapNumbers {ms o : List (Text × Value)} (h : FirstOf ms o) :
    FirstOf (mapMembers f ms) (mapMembers f o) := by
  refine ⟨mapMembers_sorted h.1, fun key => ?_⟩
  rw [find_mapMembers, find_mapMembers, h.2]

/-! ## The parser -/

/-- What the grammar reads is an exact document, rounded. -/
theorem JsonText.exact (h : JsonText ScannedNumber t v) : ∃ u, ExactText t u ∧ v = u.mapNumbers asDouble := by
  have : Inhabited Value := ⟨.null⟩
  induction h with
  | null => exact ⟨.null, .null, rfl⟩
  | bool b => exact ⟨.bool b, .bool b, rfl⟩
  | number hs hd => exact ⟨_, .number hs hd, congrArg Value.number (stod_asDouble hd)⟩
  | string hs => exact ⟨_, .string hs, rfl⟩
  | emptyArray hw => exact ⟨_, .emptyArray hw, rfl⟩
  | @array items hne _ ih =>
    choose! u hu hround using ih
    refine ⟨.array (items.map u), ?_, ?_⟩
    · have hfirst : items.map (·.1) = (items.map fun p => (p.1, u p)).map (·.1) := by rw [List.map_map]; rfl
      have hsecond : items.map u = (items.map fun p => (p.1, u p)).map (·.2) := by rw [List.map_map]; rfl
      rw [hfirst, hsecond]
      refine .array (by simpa using hne) ?_
      intro p hp
      obtain ⟨q, hq, rfl⟩ := List.mem_map.1 hp
      exact hu q hq
    · rw [Value.mapNumbers, mapItems_eq, List.map_map]
      exact congrArg Value.array (List.map_congr_left hround)
  | emptyObject hw => exact ⟨_, .emptyObject hw, rfl⟩
  | @object members o hne hkeys _ hfirst ih =>
    choose! u hu hround using ih
    -- The same entries with their exact values, and the object the parser would build from those.
    let exacts := members.map fun m => { m with value := u m }
    obtain ⟨exact, hobject⟩ : ∃ exact, FirstOf (exacts.map fun m => (m.key, m.value)) exact := ⟨_, firstOf_foldl _⟩
    refine ⟨.object exact, ?_, ?_⟩
    · have htexts : members.map (·.text) = exacts.map (·.text) := by rw [List.map_map]; rfl
      rw [htexts]
      refine .object (by simpa [exacts] using hne) ?_ ?_ hobject
      · intro m hm
        obtain ⟨m', hm', rfl⟩ := List.mem_map.1 hm
        exact hkeys m' hm'
      · intro m hm
        obtain ⟨m', hm', rfl⟩ := List.mem_map.1 hm
        exact hu m' hm'
    · rw [Value.mapNumbers]
      have hentries : members.map (fun m => (m.key, m.value)) =
          mapMembers asDouble (exacts.map fun m => (m.key, m.value)) := by
        rw [mapMembers_eq, List.map_map, List.map_map]
        exact List.map_congr_left fun m hm => Prod.ext rfl (hround m hm)
      rw [hentries] at hfirst
      exact congrArg Value.object (hfirst.unique hobject.mapNumbers)
  | blanks hw _ hw' ih =>
    obtain ⟨u, hu, rfl⟩ := ih
    exact ⟨u, .blanks hw hu hw', rfl⟩

/-- An exact document, rounded, is what the grammar reads. -/
theorem ExactText.rounded (h : ExactText t v) : JsonText ScannedNumber t (v.mapNumbers asDouble) := by
  induction h with
  | null => exact .null
  | bool b => exact .bool b
  | number hs hd => exact .number hs (stod_asDouble hd ▸ hd)
  | string hs => exact .string hs
  | emptyArray hw => exact .emptyArray hw
  | @array items hne _ ih =>
    have hfirst : items.map (·.1) = (items.map fun p => (p.1, p.2.mapNumbers asDouble)).map (·.1) := by
      rw [List.map_map]; rfl
    have hsecond : mapItems asDouble (items.map (·.2)) =
        (items.map fun p => (p.1, p.2.mapNumbers asDouble)).map (·.2) := by
      rw [mapItems_eq, List.map_map, List.map_map]
      rfl
    rw [Value.mapNumbers, hfirst, hsecond]
    refine .array (by simpa using hne) ?_
    intro p hp
    obtain ⟨q, hq, rfl⟩ := List.mem_map.1 hp
    exact ih q hq
  | emptyObject hw => exact .emptyObject hw
  | @object members o hne hkeys _ hfirst ih =>
    let doubles := members.map fun m => { m with value := m.value.mapNumbers asDouble }
    have htexts : members.map (·.text) = doubles.map (·.text) := by rw [List.map_map]; rfl
    have hentries : mapMembers asDouble (members.map fun m => (m.key, m.value)) =
        doubles.map fun m => (m.key, m.value) := by
      rw [mapMembers_eq, List.map_map, List.map_map]
      rfl
    rw [htexts, Value.mapNumbers]
    refine .object (by simpa [doubles] using hne) ?_ ?_ (hentries ▸ hfirst.mapNumbers)
    · intro m hm
      obtain ⟨m', hm', rfl⟩ := List.mem_map.1 hm
      exact hkeys m' hm'
    · intro m hm
      obtain ⟨m', hm', rfl⟩ := List.mem_map.1 hm
      exact ih m' hm'
  | blanks hw _ hw' ih => exact .blanks hw ih hw'

/-- A text is read as the document it denotes with every number rounded. -/
theorem parse_exact_iff : parse t = .ok v ↔ ∃ u, ExactText t u ∧ v = u.mapNumbers asDouble := by
  rw [parse_iff]
  constructor
  · exact JsonText.exact
  · rintro ⟨u, hu, rfl⟩
    exact hu.rounded

/-! ## Whole numbers -/

theorem numeral_decimal (m : Nat) : numeral (decimal m) = m := by
  obtain ⟨c, r, hr, hc, -⟩ := decimal_head m
  have hminus : (decimal m).head? ≠ some 45 := by
    rw [hr]
    intro h
    rw [Option.some.inj h] at hc
    cases hc
  have hall := isDigit_decimal m
  have hexact : (natOf (decimal m) : Rat) * pow10 (0 - (([] : Text).length : Int)) = m := by
    rw [natOf_decimal]
    simp [pow10]
  unfold numeral
  simp only [hminus, if_false, takeWhile_digits hall, dropWhile_digits hall, List.head?_nil, if_true, List.append_nil,
    reduceCtorEq, hexact]

/-- A whole number is printed as a text that denotes it exactly. -/
theorem exact_decimal {m : Nat} (hm : m ≤ 2 ^ 64) : ExactText (decimal m) (.number m) := by
  have hscanned : ScannedNumber (decimal m) :=
    ⟨[], decimal m, [], [], by simp, .inl rfl, .inl (wholePart_decimal m), .inl rfl, .inl rfl⟩
  have hnumber := ExactText.number hscanned (stod_decimal hm)
  rwa [numeral_decimal] at hnumber

theorem keyText_quoted (key : Text) : KeyText (quoted key) key := by
  have hquoted := KeyText.mk blank_nil (chars_escapeString key) blank_nil
  simpa [quoted] using hquoted

/-- An object of one entry. -/
theorem exact_single {key : Text} (h : ExactText t v) :
    ExactText (123 :: (quoted key ++ 58 :: t) ++ [125]) (.object [(key, v)]) := by
  have hobject : ExactText (123 :: commas ([(⟨quoted key, key, t, v⟩ : Member)].map (·.text)) ++ [125])
      (.object [(key, v)]) :=
    .object (List.cons_ne_nil _ _) (fun m hm => List.mem_singleton.1 hm ▸ keyText_quoted key)
      (fun m hm => List.mem_singleton.1 hm ▸ h) ⟨List.pairwise_singleton _ _, fun _ => rfl⟩
  exact hobject

end Json

end Cget
