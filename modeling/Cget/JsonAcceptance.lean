import Cget.JsonGrammar
/-!
# What the parser accepts

`parse` returns a value for exactly the texts that denote it when numbers are those of the
scanner. Soundness follows the parser's turns, completeness the derivation of a text. It is
the RFC's grammar on exactly the texts where the scanner lets no malformed number through.
-/

namespace Cget

namespace Json

variable {n turns : Nat} {s s' rest : Text} {v : Value}

/-! ## Blanks and commas -/

theorem takeBlanks (s : Text) : ∃ w, Blank w ∧ s = w ++ skipWhitespace s :=
  ⟨s.takeWhile isWhitespace, fun _ hb => List.mem_takeWhile_imp hb, List.takeWhile_append_dropWhile.symm⟩

theorem blank_nil : Blank [] := fun _ hb => absurd hb List.not_mem_nil

theorem Blank.append {w w' : Text} (h : Blank w) (h' : Blank w') : Blank (w ++ w') :=
  fun b hb => (List.mem_append.1 hb).elim (h b) (h' b)

/-- Blanks before a text do not change what it denotes. -/
theorem JsonText.after {number : Text → Prop} {w t : Text} (h : JsonText number t v) (hw : Blank w) :
    JsonText number (w ++ t) v := by
  rw [← List.append_nil (w ++ t)]
  exact .blanks hw h blank_nil

theorem JsonText.before {number : Text → Prop} {w t : Text} (h : JsonText number t v) (hw : Blank w) :
    JsonText number (t ++ w) v := .blanks blank_nil h hw

theorem JsonText.skipped {number : Text → Prop} (h : ∃ t, skipWhitespace s = t ++ rest ∧ JsonText number t v) :
    ∃ t, s = t ++ rest ∧ JsonText number t v := by
  obtain ⟨t, ht, hv⟩ := h
  obtain ⟨w, hw, hs⟩ := takeBlanks s
  exact ⟨w ++ t, by rw [List.append_assoc, ← ht]; exact hs, hv.after hw⟩

theorem KeyText.after {w t key : Text} (h : KeyText t key) (hw : Blank w) : KeyText (w ++ t) key := by
  obtain ⟨hw₁, hkey, hw₂⟩ := h
  rw [← List.append_assoc, ← List.append_assoc]
  exact .mk (hw.append hw₁) hkey hw₂

theorem commas_append (w t : Text) (ts : List Text) : commas ((w ++ t) :: ts) = w ++ commas (t :: ts) := by
  cases ts with
  | nil => rfl
  | cons u ts => exact List.append_assoc _ _ _

theorem commas_cons {t : Text} {ts : List Text} (h : ts ≠ []) : commas (t :: ts) = t ++ 44 :: commas ts := by
  cases ts with
  | nil => exact absurd rfl h
  | cons u ts => rfl

/-! ## Soundness -/

theorem parseLiteral_sound {literal : String} {u : Value} (h : parseLiteral n literal u s = .ok (v, s')) :
    s = text literal ++ s' ∧ v = u := by
  unfold parseLiteral at h
  split at h
  · rename_i hpre
    cases h
    obtain ⟨r, rfl⟩ := List.isPrefixOf_iff_prefix.1 hpre
    exact ⟨by rw [List.drop_left], rfl⟩
  · cases h

/-- What the three parsers have read when they return, for a number of turns. -/
structure Sound (n turns : Nat) : Prop where
  value : ∀ {s s' v}, parseValue n turns s = .ok (v, s') → ∃ t, s = t ++ s' ∧ JsonText ScannedNumber t v
  items : ∀ {s s' v result}, parseItems n turns result s = .ok (v, s') →
    ∃ items : List (Text × Value), items ≠ [] ∧ (∀ p ∈ items, JsonText ScannedNumber p.1 p.2) ∧
      s = commas (items.map (·.1)) ++ 93 :: s' ∧ v = .array (result ++ items.map (·.2))
  members : ∀ {s s' v result}, parseMembers n turns result s = .ok (v, s') →
    ∃ members : List Member, members ≠ [] ∧ (∀ m ∈ members, KeyText m.keyText m.key) ∧
      (∀ m ∈ members, JsonText ScannedNumber m.valueText m.value) ∧ s = commas (members.map (·.text)) ++ 125 :: s' ∧
      v = .object ((members.map fun m => (m.key, m.value)).foldl (fun o p => emplace p.1 p.2 o) result)

theorem parseValue_sound (ih : Sound n turns) (h : parseValue n (turns + 1) s = .ok (v, s')) :
    ∃ t, s = t ++ s' ∧ JsonText ScannedNumber t v := by
  apply JsonText.skipped
  rw [parseValue] at h
  split at h
  · rename_i hs
    obtain ⟨hform, rfl⟩ := parseLiteral_sound h
    exact ⟨text "null", hs.trans hform, .null⟩
  · rename_i hs
    obtain ⟨hform, rfl⟩ := parseLiteral_sound h
    exact ⟨text "true", hs.trans hform, .bool true⟩
  · rename_i hs
    obtain ⟨hform, rfl⟩ := parseLiteral_sound h
    exact ⟨text "false", hs.trans hform, .bool false⟩
  · rename_i hs
    obtain ⟨⟨t, r⟩, hstring, ht⟩ := bind_ok h
    cases ht
    obtain ⟨body, hform, hbody⟩ := parseString_sound hstring
    exact ⟨34 :: body ++ [34], by rw [hs, hform]; simp, .string hbody⟩
  · rename_i r hs
    split at h
    · rename_i r' hclose
      cases h
      obtain ⟨w, hw, hr⟩ := takeBlanks r
      exact ⟨91 :: w ++ [93], by rw [hs, hr, hclose]; simp, .emptyArray hw⟩
    · obtain ⟨items, hne, hitems, hform, rfl⟩ := ih.items h
      obtain ⟨w, hw, hr⟩ := takeBlanks r
      obtain ⟨p, ps, rfl⟩ := List.exists_cons_of_ne_nil hne
      refine ⟨91 :: commas (((w ++ p.1, p.2) :: ps).map (·.1)) ++ [93], ?_, .array (List.cons_ne_nil _ _) ?_⟩
      · rw [hs, hr, hform, List.map_cons, List.map_cons, commas_append]
        simp
      · intro q hq
        rcases List.mem_cons.1 hq with rfl | hq
        · exact (hitems p List.mem_cons_self).after hw
        · exact hitems q (List.mem_cons_of_mem _ hq)
  · rename_i r hs
    split at h
    · rename_i r' hclose
      cases h
      obtain ⟨w, hw, hr⟩ := takeBlanks r
      exact ⟨123 :: w ++ [125], by rw [hs, hr, hclose]; simp, .emptyObject hw⟩
    · obtain ⟨members, hne, hkeys, hvalues, hform, rfl⟩ := ih.members h
      obtain ⟨w, hw, hr⟩ := takeBlanks r
      obtain ⟨m, ms, rfl⟩ := List.exists_cons_of_ne_nil hne
      refine ⟨123 :: commas (({ m with keyText := w ++ m.keyText } :: ms).map (·.text)) ++ [125], ?_,
        .object (List.cons_ne_nil _ _) ?_ ?_ (firstOf_foldl _)⟩
      · have hfirst : ({ m with keyText := w ++ m.keyText } : Member).text = w ++ m.text := List.append_assoc _ _ _
        rw [hs, hr, hform, List.map_cons, List.map_cons, hfirst, commas_append]
        simp
      · intro m' hm'
        rcases List.mem_cons.1 hm' with rfl | hm'
        · exact (hkeys m List.mem_cons_self).after hw
        · exact hkeys m' (List.mem_cons_of_mem _ hm')
      · intro m' hm'
        rcases List.mem_cons.1 hm' with rfl | hm'
        · exact hvalues m List.mem_cons_self
        · exact hvalues m' (List.mem_cons_of_mem _ hm')
  · split at h
    · rename_i hhead
      exact parseNumber_sound hhead h
    · cases h

theorem parseItems_sound {result : List Value} (ih : Sound n turns)
    (h : parseItems n (turns + 1) result s = .ok (v, s')) :
    ∃ items : List (Text × Value), items ≠ [] ∧ (∀ p ∈ items, JsonText ScannedNumber p.1 p.2) ∧
      s = commas (items.map (·.1)) ++ 93 :: s' ∧ v = .array (result ++ items.map (·.2)) := by
  rw [parseItems] at h
  obtain ⟨⟨u, r⟩, hu, h⟩ := bind_ok h
  obtain ⟨t, hs, ht⟩ := ih.value hu
  obtain ⟨w, hw, hr⟩ := takeBlanks r
  dsimp only at h
  -- The blanks after a value are taken for part of its text.
  have hvalue : JsonText ScannedNumber (t ++ w) u := ht.before hw
  split at h
  · rename_i r' hclose
    cases h
    refine ⟨[(t ++ w, u)], List.cons_ne_nil _ _, ?_, ?_, rfl⟩
    · intro p hp
      rw [List.mem_singleton.1 hp]
      exact hvalue
    · rw [hs, hr, hclose]
      simp [commas]
  · rename_i r' hcomma
    obtain ⟨items, hne, hitems, rfl, rfl⟩ := ih.items h
    refine ⟨(t ++ w, u) :: items, List.cons_ne_nil _ _, ?_, ?_, by simp⟩
    · intro p hp
      rcases List.mem_cons.1 hp with rfl | hp
      · exact hvalue
      · exact hitems p hp
    · rw [hs, hr, hcomma, List.map_cons, commas_cons (by simpa using hne)]
      simp
  · cases h

theorem parseMembers_sound {result : List (Text × Value)} (ih : Sound n turns)
    (h : parseMembers n (turns + 1) result s = .ok (v, s')) :
    ∃ members : List Member, members ≠ [] ∧ (∀ m ∈ members, KeyText m.keyText m.key) ∧
      (∀ m ∈ members, JsonText ScannedNumber m.valueText m.value) ∧ s = commas (members.map (·.text)) ++ 125 :: s' ∧
      v = .object ((members.map fun m => (m.key, m.value)).foldl (fun o p => emplace p.1 p.2 o) result) := by
  rw [parseMembers] at h
  obtain ⟨⟨key, r⟩, hkey, h⟩ := bind_ok h
  obtain ⟨body, hstring, hbody⟩ := parseString_sound hkey
  obtain ⟨w, hw, hs⟩ := takeBlanks s
  obtain ⟨w', hw', hr⟩ := takeBlanks r
  dsimp only at h
  split at h
  · rename_i r₁ hcolon
    obtain ⟨⟨u, r₂⟩, hu, h⟩ := bind_ok h
    obtain ⟨t, ht, hu⟩ := ih.value hu
    obtain ⟨w₂, hw₂, hr₂⟩ := takeBlanks r₂
    dsimp only at h
    have hvalue : JsonText ScannedNumber (t ++ w₂) u := hu.before hw₂
    have hform : s = (⟨w ++ 34 :: body ++ 34 :: w', key, t ++ w₂, u⟩ : Member).text ++ skipWhitespace r₂ := by
      rw [hs, hstring, hr, hcolon, ht]
      conv_lhs => rw [hr₂]
      simp [Member.text]
    split at h
    · rename_i r₃ hclose
      cases h
      refine ⟨[⟨w ++ 34 :: body ++ 34 :: w', key, t ++ w₂, u⟩], List.cons_ne_nil _ _, ?_, ?_, ?_, rfl⟩
      · intro m hm
        rw [List.mem_singleton.1 hm]
        exact .mk hw hbody hw'
      · intro m hm
        rw [List.mem_singleton.1 hm]
        exact hvalue
      · rw [hform, hclose]
        rfl
    · rename_i r₃ hcomma
      obtain ⟨members, hne, hkeys, hvalues, rfl, rfl⟩ := ih.members h
      refine ⟨⟨w ++ 34 :: body ++ 34 :: w', key, t ++ w₂, u⟩ :: members, List.cons_ne_nil _ _, ?_, ?_, ?_, rfl⟩
      · intro m hm
        rcases List.mem_cons.1 hm with rfl | hm
        · exact .mk hw hbody hw'
        · exact hkeys m hm
      · intro m hm
        rcases List.mem_cons.1 hm with rfl | hm
        · exact hvalue
        · exact hvalues m hm
      · rw [hform, hcomma, List.map_cons, commas_cons (by simpa using hne)]
        simp
    · cases h
  · cases h

theorem sound (n turns : Nat) : Sound n turns := by
  induction turns with
  | zero =>
    constructor
    · intro s s' v h; rw [parseValue] at h; cases h
    · intro s s' v result h; rw [parseItems] at h; cases h
    · intro s s' v result h; rw [parseMembers] at h; cases h
  | succ turns ih => exact ⟨parseValue_sound ih, parseItems_sound ih, parseMembers_sound ih⟩

/-! ## Completeness -/

theorem skip_blanks {w : Text} (hw : Blank w) (s : Text) : skipWhitespace (w ++ s) = skipWhitespace s :=
  skipWhitespace_append hw s

/-- The parser reads this text as this value, whatever follows, and stops within the blanks after it. -/
def Parses (t : Text) (v : Value) : Prop :=
  ∀ {n turns : Nat} {rest : Text}, Ends rest → 2 * (t ++ rest).length + 1 ≤ turns →
    ∃ s', parseValue n turns (t ++ rest) = .ok (v, s') ∧ skipWhitespace s' = skipWhitespace rest

/-- The first byte of a value, past its blanks. -/
theorem JsonText.head {t : Text} (h : JsonText ScannedNumber t v) :
    ∃ w c r, t = w ++ c :: r ∧ Blank w ∧ isWhitespace c = false ∧ c ≠ 93 := by
  induction h with
  | null => exact ⟨[], 110, _, rfl, blank_nil, rfl, by decide⟩
  | bool b =>
    cases b with
    | false => exact ⟨[], 102, _, rfl, blank_nil, rfl, by decide⟩
    | true => exact ⟨[], 116, _, rfl, blank_nil, rfl, by decide⟩
  | number hnumber _ =>
    obtain ⟨c, r, hform, hc⟩ := scanned_head hnumber []
    rw [List.append_nil] at hform
    refine ⟨[], c, r, hform, blank_nil, ?_⟩
    rcases hc with rfl | hc
    · decide
    · exact ⟨isWhitespace_digit hc, by rintro rfl; cases hc⟩
  | string _ => exact ⟨[], 34, _, rfl, blank_nil, rfl, by decide⟩
  | emptyArray _ => exact ⟨[], 91, _, rfl, blank_nil, rfl, by decide⟩
  | array _ _ _ => exact ⟨[], 91, _, rfl, blank_nil, rfl, by decide⟩
  | emptyObject _ => exact ⟨[], 123, _, rfl, blank_nil, rfl, by decide⟩
  | object _ _ _ _ _ => exact ⟨[], 123, _, rfl, blank_nil, rfl, by decide⟩
  | @blanks w s w' v hw _ hw' ih =>
    obtain ⟨w₁, c, r, rfl, hw₁, hc⟩ := ih
    exact ⟨w ++ w₁, c, r ++ w', by simp, hw.append hw₁, hc⟩

theorem parseValue_number {c : UInt8} (hc : c = 45 ∨ isDigit c = true) (s : Text) :
    parseValue n (turns + 1) (c :: s) = parseNumber (c :: s) := by
  rcases hc with rfl | hc
  · rw [parseValue, skipWhitespace_cons rfl]
    rfl
  · exact parseValue_digit hc s

theorem ends_bracket {c : UInt8} (h : c = 44 ∨ c = 93 ∨ c = 125) (s : Text) : Ends (c :: s) := by
  intro b hb
  cases hb
  exact .inr h

theorem parseItems_complete {items : List (Text × Value)} (hne : items ≠ []) (hitems : ∀ p ∈ items, Parses p.1 p.2)
    (result : List Value) (hturns : 2 * (commas (items.map (·.1)) ++ 93 :: rest).length + 2 ≤ turns) :
    parseItems n turns result (commas (items.map (·.1)) ++ 93 :: rest) = .ok
      (.array (result ++ items.map (·.2)), rest) := by
  induction items generalizing turns result with
  | nil => exact absurd rfl hne
  | cons p ps ih =>
    obtain ⟨turns, rfl⟩ : ∃ k, turns = k + 1 := ⟨turns - 1, by omega⟩
    by_cases hps : ps = []
    · subst hps
      obtain ⟨s', hvalue, hs'⟩ := hitems p List.mem_cons_self (n := n) (ends_bracket (.inr (.inl rfl)) rest)
        (show 2 * (p.1 ++ 93 :: rest).length + 1 ≤
          turns by simp only [List.map_cons, List.map_nil, commas] at hturns; omega)
      exact parseItems_last hvalue hs'
    · have hform : commas ((p :: ps).map (·.1)) ++ 93 :: rest = p.1 ++ 44 :: (commas (ps.map (·.1)) ++ 93 :: rest) := by
        rw [List.map_cons, commas_cons (by simpa using hps)]
        simp
      rw [hform] at hturns ⊢
      obtain ⟨s', hvalue, hs'⟩ := hitems p List.mem_cons_self (n := n)
        (ends_bracket (.inl rfl) (commas (ps.map (·.1)) ++ 93 :: rest)) (by omega : _ ≤ turns)
      rw [parseItems_more hvalue hs', ih hps (fun q hq => hitems q (List.mem_cons_of_mem _ hq))]
      · simp
      · simp only [List.length_append, List.length_cons] at hturns ⊢
        omega

theorem parseKey_complete (rest : Text) {t key : Text} (h : KeyText t key) :
    ∃ r s₁, skipWhitespace (t ++ 58 :: rest) = 34 :: r ∧ parseString n (34 :: r) = .ok (key, s₁) ∧
      skipWhitespace s₁ = 58 :: rest := by
  obtain ⟨hw, hkey, hw'⟩ := h
  rename_i w w' s
  refine ⟨s ++ 34 :: (w' ++ 58 :: rest), w' ++ 58 :: rest, ?_, parseString_complete hkey, skip_blanks hw' _⟩
  have hform : w ++ 34 :: s ++ 34 :: w' ++ 58 :: rest = w ++ 34 :: (s ++ 34 :: (w' ++ 58 :: rest)) := by simp
  rw [hform, skip_blanks hw]
  rfl

theorem parseMembers_complete {members : List Member} (hne : members ≠ [])
    (hkeys : ∀ m ∈ members, KeyText m.keyText m.key)
    (hvalues : ∀ m ∈ members, Parses m.valueText m.value) (result : List (Text × Value))
    (hturns : 2 * (commas (members.map (·.text)) ++ 125 :: rest).length + 2 ≤ turns) :
    parseMembers n turns result (commas (members.map (·.text)) ++ 125 :: rest) =
      .ok (.object ((members.map fun m => (m.key, m.value)).foldl (fun o p => emplace p.1 p.2 o) result), rest) := by
  induction members generalizing turns result with
  | nil => exact absurd rfl hne
  | cons m ms ih =>
    obtain ⟨turns, rfl⟩ : ∃ k, turns = k + 1 := ⟨turns - 1, by omega⟩
    by_cases hms : ms = []
    · subst hms
      have hform : commas ([m].map (·.text)) ++ 125 :: rest = m.keyText ++ 58 :: (m.valueText ++ 125 :: rest) := by
        simp [commas, Member.text]
      rw [hform] at hturns ⊢
      obtain ⟨r, s₁, hskip, hkey, hcolon⟩ :=
        parseKey_complete (n := n) (m.valueText ++ 125 :: rest) (hkeys m List.mem_cons_self)
      obtain ⟨s', hvalue, hs'⟩ := hvalues m List.mem_cons_self (n := n) (ends_bracket (.inr (.inr rfl)) rest)
        (by simp only [List.length_append, List.length_cons] at hturns ⊢; omega : _ ≤ turns)
      exact parseMembers_last (hskip ▸ hkey) hcolon hvalue hs'
    · have hform : commas ((m :: ms).map (·.text)) ++ 125 :: rest =
          m.keyText ++ 58 :: (m.valueText ++ 44 :: (commas (ms.map (·.text)) ++ 125 :: rest)) := by
        rw [List.map_cons, commas_cons (by simpa using hms)]
        simp [Member.text]
      rw [hform] at hturns ⊢
      obtain ⟨r, s₁, hskip, hkey, hcolon⟩ := parseKey_complete (n := n)
        (m.valueText ++ 44 :: (commas (ms.map (·.text)) ++ 125 :: rest)) (hkeys m List.mem_cons_self)
      simp only [List.length_append, List.length_cons] at hturns
      obtain ⟨s', hvalue, hs'⟩ := hvalues m List.mem_cons_self (n := n)
        (ends_bracket (.inl rfl) (commas (ms.map (·.text)) ++ 125 :: rest))
        (by simp only [List.length_append, List.length_cons]; omega : _ ≤ turns)
      rw [parseMembers_more (hskip ▸ hkey) hcolon hvalue hs', ih hms (fun q hq => hkeys q (List.mem_cons_of_mem _ hq))
        (fun q hq => hvalues q (List.mem_cons_of_mem _ hq))]
      · rfl
      · simp only [List.length_append, List.length_cons]
        omega

/-- An object is read up to its bracket, whatever follows. -/
theorem emptyObject_complete {w : Text} (hw : Blank w) (hturns : 1 ≤ turns) :
    parseValue n turns (123 :: w ++ [125] ++ rest) = .ok (.object [], rest) := by
  obtain ⟨turns, rfl⟩ : ∃ k, turns = k + 1 := ⟨turns - 1, by omega⟩
  have hform : 123 :: w ++ [125] ++ rest = 123 :: (w ++ 125 :: rest) := by simp
  rw [hform, parseValue, skipWhitespace_cons rfl]
  simp only [skip_blanks hw]
  rfl

theorem object_complete {members : List Member} {o : List (Text × Value)} (hne : members ≠ [])
    (hkeys : ∀ m ∈ members, KeyText m.keyText m.key) (hvalues : ∀ m ∈ members, Parses m.valueText m.value)
    (hfirst : FirstOf (members.map fun m => (m.key, m.value)) o)
    (hturns : 2 * (123 :: commas (members.map Member.text) ++ [125] ++ rest).length + 1 ≤ turns) :
    parseValue n turns (123 :: commas (members.map (·.text)) ++ [125] ++ rest) = .ok (.object o, rest) := by
  obtain ⟨turns, rfl⟩ : ∃ k, turns = k + 1 := ⟨turns - 1, by omega⟩
  have hform : 123 :: commas (members.map (·.text)) ++ [125] ++ rest =
      123 :: (commas (members.map (·.text)) ++ 125 :: rest) := by
    simp
  rw [hform] at hturns ⊢
  -- Past the blanks comes the first key, no bracket.
  obtain ⟨r, hskip⟩ : ∃ r, skipWhitespace (commas (members.map (·.text)) ++ 125 :: rest) = 34 :: r := by
    obtain ⟨m, ms, rfl⟩ := List.exists_cons_of_ne_nil hne
    obtain ⟨r, hr⟩ : ∃ r, commas ((m :: ms).map (·.text)) ++ 125 :: rest = m.keyText ++ 58 :: r := by
      cases ms <;> exact ⟨_, by simp [commas, Member.text]; rfl⟩
    obtain ⟨r', _, hskip, -⟩ := parseKey_complete (n := n) r (hkeys m List.mem_cons_self)
    exact ⟨r', by rw [hr, hskip]⟩
  rw [parseValue_object hskip rfl, hfirst.unique (firstOf_foldl _)]
  exact parseMembers_complete hne hkeys hvalues [] (by simp only [List.length_cons] at hturns; omega)

theorem JsonText.parses {t : Text} (h : JsonText ScannedNumber t v) : Parses t v := by
  induction h with
  | null =>
    intro n turns rest _ hturns
    obtain ⟨turns, rfl⟩ : ∃ k, turns = k + 1 := ⟨turns - 1, by omega⟩
    exact ⟨rest, parseLiteral_append "null" .null rest, rfl⟩
  | bool b =>
    intro n turns rest _ hturns
    obtain ⟨turns, rfl⟩ : ∃ k, turns = k + 1 := ⟨turns - 1, by omega⟩
    cases b with
    | false => exact ⟨rest, parseLiteral_append "false" (.bool false) rest, rfl⟩
    | true => exact ⟨rest, parseLiteral_append "true" (.bool true) rest, rfl⟩
  | number hnumber hd =>
    intro n turns rest hrest hturns
    obtain ⟨turns, rfl⟩ : ∃ k, turns = k + 1 := ⟨turns - 1, by omega⟩
    obtain ⟨c, r, hform, hc⟩ := scanned_head hnumber rest
    refine ⟨rest, ?_, rfl⟩
    rw [← parseNumber_complete hnumber hd hrest, hform]
    exact parseValue_number hc r
  | @string s t hs =>
    intro n turns rest _ hturns
    obtain ⟨turns, rfl⟩ : ∃ k, turns = k + 1 := ⟨turns - 1, by omega⟩
    have hform : 34 :: s ++ [34] ++ rest = 34 :: (s ++ 34 :: rest) := by simp
    rw [hform]
    exact ⟨rest, ok_bind (parseString_complete hs) rfl, rfl⟩
  | @emptyArray w hw =>
    intro n turns rest _ hturns
    obtain ⟨turns, rfl⟩ : ∃ k, turns = k + 1 := ⟨turns - 1, by omega⟩
    have hform : 91 :: w ++ [93] ++ rest = 91 :: (w ++ 93 :: rest) := by simp
    refine ⟨rest, ?_, rfl⟩
    rw [hform, parseValue, skipWhitespace_cons rfl]
    simp only [skip_blanks hw]
    rfl
  | @array items hne hitems ih =>
    intro n turns rest _ hturns
    obtain ⟨turns, rfl⟩ : ∃ k, turns = k + 1 := ⟨turns - 1, by omega⟩
    have hform : 91 :: commas (items.map (·.1)) ++ [93] ++ rest =
        91 :: (commas (items.map (·.1)) ++ 93 :: rest) := by simp
    rw [hform] at hturns ⊢
    -- Past the blanks comes the first item, no bracket.
    obtain ⟨c, r, hskip, hc⟩ : ∃ c r, skipWhitespace (commas (items.map (·.1)) ++ 93 :: rest) = c :: r ∧ c ≠ 93 := by
      obtain ⟨p, ps, rfl⟩ := List.exists_cons_of_ne_nil hne
      obtain ⟨w, c, r, hp, hw, hblank, hc⟩ := (hitems p List.mem_cons_self).head
      rw [List.map_cons, hp, commas_append, List.append_assoc, skip_blanks hw]
      obtain ⟨r', hr'⟩ : ∃ r', commas ((c :: r) :: ps.map (·.1)) = c :: r' := by cases ps <;> exact ⟨_, rfl⟩
      exact ⟨c, r' ++ 93 :: rest, by rw [hr', List.cons_append, skipWhitespace_cons hblank], hc⟩
    refine ⟨rest, ?_, rfl⟩
    rw [parseValue_array hskip hc rfl]
    exact parseItems_complete hne ih [] (by simp only [List.length_cons] at hturns; omega)
  | emptyObject hw =>
    intro n turns rest _ hturns
    exact ⟨rest, emptyObject_complete hw (by omega), rfl⟩
  | object hne hkeys _ hfirst ih =>
    intro n turns rest _ hturns
    exact ⟨rest, object_complete hne hkeys ih hfirst hturns, rfl⟩
  | @blanks w s w' v hw _ hw' ih =>
    intro n turns rest hrest hturns
    have hends : Ends (w' ++ rest) := by
      intro c hc
      cases w' with
      | nil => exact hrest c hc
      | cons b w' =>
        cases hc
        exact .inl (hw' c List.mem_cons_self)
    have hform : w ++ s ++ w' ++ rest = w ++ (s ++ (w' ++ rest)) := by simp
    rw [hform] at hturns ⊢
    obtain ⟨s', hvalue, hs'⟩ := ih (n := n) hends (by simp only [List.length_append] at hturns ⊢; omega : _ ≤ turns)
    exact ⟨s', by rw [parseValue_congr (skip_blanks hw _), hvalue], hs'.trans (skip_blanks hw' rest)⟩

theorem parse_iff {input : Text} : parse input = .ok v ↔ JsonText ScannedNumber input v := by
  constructor
  · intro h
    obtain ⟨⟨u, r⟩, hu, h⟩ := bind_ok h
    obtain ⟨t, hinput, ht⟩ := JsonText.skipped ((sound _ _).value hu)
    obtain ⟨w, hw, hr⟩ := takeBlanks r
    dsimp only at h
    split at h
    · rename_i hend
      cases h
      rw [hinput, hr, hend, List.append_nil]
      exact ht.before hw
    · cases h
  · intro h
    have hends : Ends [] := fun c hc => by cases hc
    obtain ⟨s', hvalue, hs'⟩ := h.parses (n := input.length) hends (by rw [List.append_nil] : _ ≤ 2 * input.length + 1)
    rw [List.append_nil] at hvalue
    refine ok_bind ((parseValue_congr (skipWhitespace_idem input)).trans hvalue) ?_
    dsimp only
    rw [hs']
    rfl

/-! ## Every other text is refused -/

/-- An exception of this reader is one the source throws, not the end of its turns. -/
def Refuses {α : Type} (x : Except Exn α) : Prop := ∀ e, x = .error e → ∃ what, e = .other what

theorem Refuses.bind {α β : Type} {x : Except Exn α} {f : α → Except Exn β} (hx : Refuses x)
    (hf : ∀ a, x = .ok a → Refuses (f a)) :
    Refuses (x >>= f) := by
  intro e he
  cases hx' : x with
  | error e' =>
    rw [hx'] at he
    cases he
    exact hx e hx'
  | ok a =>
    rw [hx'] at he
    exact hf a hx' e he

theorem refuses_ok {α : Type} (a : α) : Refuses (.ok a : Except Exn α) := fun _ he => (by cases he)

theorem refuses_fail {α : Type} {message : Text} : Refuses (fail n s message : Except Exn α) := by
  intro e he
  cases he
  exact ⟨_, rfl⟩

theorem refuses_parseLiteral {literal : String} : Refuses (parseLiteral n literal v s) := by
  unfold parseLiteral
  split
  · exact refuses_ok _
  · exact refuses_fail

theorem refuses_parseChars (n : Nat) (s : Text) :
    ∀ (escaped : Bool) (result : Text), Refuses (parseChars n escaped result s) := by
  induction s with
  | nil =>
    intro escaped result
    rw [parseChars]
    split <;> exact refuses_fail
  | cons c s ih =>
    intro escaped result
    rw [parseChars]
    split
    · split
      · exact ih false _
      · exact refuses_fail
    · split
      · exact refuses_ok _
      · split
        · exact ih true _
        · exact ih false _

theorem refuses_parseString : Refuses (parseString n s) := by
  unfold parseString
  split
  · exact refuses_parseChars n _ false []
  · exact refuses_fail

theorem refuses_parseNumber (s : Text) : Refuses (parseNumber s) := by
  -- The last steps of `stod`, on anything read.
  have last : ∀ (none range : Prop) [Decidable none] [Decidable range] (what : Text) (d : Rat),
      Refuses (if none then .error (.other what) else if range then .error (.other what) else .ok d) := by
    intro none range _ _ what d
    split
    · exact fun e he => ⟨what, (Except.error.inj he).symm⟩
    · split
      · exact fun e he => ⟨what, (Except.error.inj he).symm⟩
      · exact refuses_ok d
  have hstod : ∀ t, Refuses (stod t) := fun t => last _ _ _ _
  exact (hstod _).bind fun d _ => refuses_ok _

theorem JsonText.length_pos {t : Text} (h : JsonText ScannedNumber t v) : 0 < t.length := by
  obtain ⟨w, c, r, rfl, -⟩ := h.head
  simp

theorem skipWhitespace_length (s : Text) : (skipWhitespace s).length ≤ s.length := (List.dropWhile_suffix _).length_le

/-- With two turns for each byte the parsers do not run out of them. -/
structure TurnsSuffice (n turns : Nat) : Prop where
  value : ∀ {s}, 2 * s.length + 1 ≤ turns → Refuses (parseValue n turns s)
  items : ∀ {s result}, 2 * s.length + 2 ≤ turns → Refuses (parseItems n turns result s)
  members : ∀ {s result}, 2 * s.length + 2 ≤ turns → Refuses (parseMembers n turns result s)

theorem turnsSuffice (n turns : Nat) : TurnsSuffice n turns := by
  induction turns with
  | zero => exact ⟨fun h => absurd h (by omega), fun h => absurd h (by omega), fun h => absurd h (by omega)⟩
  | succ turns ih =>
    constructor
    · intro s h
      have hskip := skipWhitespace_length s
      rw [parseValue]
      split
      · exact refuses_parseLiteral
      · exact refuses_parseLiteral
      · exact refuses_parseLiteral
      · exact refuses_parseString.bind fun _ _ => refuses_ok _
      · rename_i r hs
        have hr := skipWhitespace_length r
        rw [hs, List.length_cons] at hskip
        split
        · exact refuses_ok _
        · exact ih.items (by omega)
      · rename_i r hs
        have hr := skipWhitespace_length r
        rw [hs, List.length_cons] at hskip
        split
        · exact refuses_ok _
        · exact ih.members (by omega)
      · split
        · exact refuses_parseNumber _
        · exact refuses_fail
    · intro s result h
      rw [parseItems]
      refine (ih.value (by omega)).bind ?_
      rintro ⟨u, r⟩ hu
      obtain ⟨t, rfl, ht⟩ := (sound n turns).value hu
      have hskip := skipWhitespace_length r
      have hpos := ht.length_pos
      rw [List.length_append] at h
      dsimp only
      split
      · exact refuses_ok _
      · rename_i r' hcomma
        rw [hcomma, List.length_cons] at hskip
        exact ih.items (by omega)
      · exact refuses_fail
    · intro s result h
      rw [parseMembers]
      refine refuses_parseString.bind ?_
      rintro ⟨key, r⟩ hkey
      obtain ⟨body, hs, -⟩ := parseString_sound hkey
      have hskip := skipWhitespace_length s
      have hskip' := skipWhitespace_length r
      rw [hs, List.length_cons, List.length_append, List.length_cons] at hskip
      dsimp only
      split
      · rename_i r₁ hcolon
        rw [hcolon, List.length_cons] at hskip'
        refine (ih.value (by omega)).bind ?_
        rintro ⟨u, r₂⟩ hu
        obtain ⟨t, rfl, -⟩ := (sound n turns).value hu
        have hskip₂ := skipWhitespace_length r₂
        rw [List.length_append] at hskip'
        dsimp only
        split
        · exact refuses_ok _
        · rename_i r₃ hcomma
          rw [hcomma, List.length_cons] at hskip₂
          exact ih.members (by omega)
        · exact refuses_fail
      · exact refuses_fail

theorem refuses_parse (input : Text) : Refuses (parse input) := by
  refine ((turnsSuffice _ _).value ?_).bind ?_
  · have := skipWhitespace_length input
    omega
  · rintro ⟨v, s⟩ -
    dsimp only
    split
    · exact refuses_ok _
    · exact refuses_fail

/-- The parser returns what a text of the RFC's grammar denotes, and throws on every other text. -/
structure ParsedByGrammar (input : Text) : Prop where
  parse_iff : ∀ v, parse input = .ok v ↔ JsonText RfcNumber input v
  throws : (¬ ∃ v, JsonText RfcNumber input v) → ∃ what, parse input = .error (.other what)

end Json

/-- The parser accepts exactly the RFC's grammar on the texts that do not need a number
without digits where the RFC asks for them: before or after a point, or in an exponent. -/
theorem parse_by_grammar_iff (input : Text) :
    Json.ParsedByGrammar input ↔ ∀ v, Json.JsonText Json.ScannedNumber input v →
    Json.JsonText Json.RfcNumber input v := by
  constructor
  · intro h v hv
    exact (h.parse_iff v).1 (Json.parse_iff.2 hv)
  · intro h
    have hiff : ∀ v, Json.parse input = .ok v ↔ Json.JsonText Json.RfcNumber input v := fun v =>
      ⟨fun hv => h v (Json.parse_iff.1 hv), fun hv => Json.parse_iff.2 (hv.mono fun _ => Json.RfcNumber.scanned)⟩
    refine ⟨hiff, fun hnone => ?_⟩
    cases hparse : Json.parse input with
    | ok v => exact absurd ⟨v, (hiff v).1 hparse⟩ hnone
    | error e =>
      obtain ⟨what, rfl⟩ := Json.refuses_parse input e hparse
      exact ⟨what, rfl⟩

/-- The digit one and a point. -/
def pointWithoutDigits : Text := text "1."

theorem not_rfc_point {v : Json.Value} (h : Json.JsonText Json.RfcNumber pointWithoutDigits v) : False := by
  have hform : ∀ t u, Json.JsonText Json.RfcNumber t u → t ≠ [49, 46] := by
    intro t u ht
    induction ht with
    | null => decide
    | bool b => cases b <;> decide
    | number hnumber _ =>
      intro he
      obtain ⟨sign, whole, fraction, exponent, rfl, rfl | rfl, rfl | ⟨c, r, rfl, -, -, hr⟩, hfraction, hexponent⟩ :=
        hnumber
      · simp at he
      · cases r with
        | cons b r =>
          have hb : b = 46 := by simp at he; exact he.2.1
          exact absurd (hr b List.mem_cons_self) (by rw [hb]; decide)
        | nil =>
          rcases hfraction with rfl | ⟨ds, rfl, -, hds⟩
          · rcases hexponent with rfl | ⟨mark, sign, ds, rfl, rfl | rfl, -⟩ <;> simp at he
          · simp [hds] at he
      all_goals simp at he
    | @blanks w s w' u hw _ hw' ih =>
      intro he
      cases w with
      | cons b w =>
        have hb : b = 49 := by simp at he; exact he.1
        exact absurd (hw b List.mem_cons_self) (by rw [hb]; decide)
      | nil =>
        rcases List.eq_nil_or_concat w' with rfl | ⟨r, b, rfl⟩
        · exact ih (by simpa using he)
        · have hb : b = 46 := by simpa using congrArg List.getLast? he
          exact absurd (hw' b (by simp)) (by rw [hb]; decide)
    | _ => simp
  exact hform _ _ h (by decide +kernel)

/-- Such a text is read as a number. -/
theorem parse_accepts_point : ¬ ∀ input : Text, Json.ParsedByGrammar input := by
  intro h
  have hscanned : Json.JsonText Json.ScannedNumber pointWithoutDigits (.number 1) := by
    refine .number ⟨[], [49], [46], [], by decide +kernel, .inl rfl, .inl (.inr ⟨49, [], rfl, rfl, by decide, ?_⟩),
      ?_, .inl rfl⟩ (by decide +kernel)
    · exact fun b hb => absurd hb List.not_mem_nil
    · exact .inr ⟨[], rfl, fun b hb => absurd hb List.not_mem_nil, trivial⟩
  exact not_rfc_point (((h pointWithoutDigits).parse_iff _).1 (Json.parse_iff.2 hscanned))

end Cget
