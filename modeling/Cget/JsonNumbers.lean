import Cget.JsonObject
/-!
# The numbers of a parsed text

Every number `parse` returns is a double, because `stod` rounds. The induction is on the
parser's turns; a list or an object under construction holds doubles already.
-/

namespace Cget

namespace Json

/-- A rounded number, of either sign. -/
def IsDouble (d : Rat) : Prop := ∃ q : Rat, 0 ≤ q ∧ (d = Binary64.nearest q ∨ d = -Binary64.nearest q)

/-- Every number in a value satisfies `P`. -/
inductive Numbers (P : Rat → Prop) : Value → Prop
  | null : Numbers P .null
  | bool (b : Bool) : Numbers P (.bool b)
  | number (d : Rat) : P d → Numbers P (.number d)
  | string (s : Text) : Numbers P (.string s)
  | array (a : List Value) : (∀ v ∈ a, Numbers P v) → Numbers P (.array a)
  | object (o : List (Text × Value)) : (∀ p ∈ o, Numbers P p.2) → Numbers P (.object o)

variable {n : Nat} {s s' : Text} {v : Value}

/-- One step of a reader that succeeded. -/
theorem bind_ok {α β : Type} {m : Except Exn α} {f : α → Except Exn β} {r : β} (h : (m >>= f) = .ok r) :
    ∃ a, m = .ok a ∧ f a = .ok r := by
  cases m with
  | error e => cases h
  | ok a => exact ⟨a, rfl, h⟩

theorem pow10_pos (e : Int) : 0 < pow10 e := by
  unfold pow10
  split <;> positivity

theorem stod_double {d : Rat} (h : stod s = .ok d) : IsDouble d := by
  -- The last steps of `stod`, on any sign and any number read.
  have last : ∀ (negative none range : Prop) [Decidable negative] [Decidable none] [Decidable range]
      (q : Rat) (e : Exn), 0 ≤ q → (if none then .error e else if range then .error e
        else .ok (if negative then -Binary64.nearest q else Binary64.nearest q)) = Except.ok d → IsDouble d := by
    intro negative none range _ _ _ q e hq h
    split at h
    · cases h
    split at h
    · cases h
    simp only [Except.ok.injEq] at h
    refine ⟨q, hq, ?_⟩
    split at h
    · exact .inr h.symm
    · exact .inl h.symm
  exact last _ _ _ _ _ (mul_nonneg (Nat.cast_nonneg _) (pow10_pos _).le) h

theorem parseNumber_double (h : parseNumber s = .ok (v, s')) : Numbers IsDouble v := by
  obtain ⟨d, hd, hv⟩ := bind_ok h
  cases hv
  exact .number d (stod_double hd)

theorem mem_emplace {k : Text} {u : Value} {o : List (Text × Value)} {p : Text × Value} (h : p ∈ emplace k u o) :
    p = (k, u) ∨ p ∈ o := by
  induction o with
  | nil => exact .inl (List.mem_singleton.1 h)
  | cons q o ih =>
    obtain ⟨k', u'⟩ := q
    rw [emplace] at h
    split at h
    · exact (List.mem_cons.1 h).imp id id
    · split at h
      · exact .inr h
      · rcases List.mem_cons.1 h with rfl | h
        · exact .inr List.mem_cons_self
        · exact (ih h).imp id (List.mem_cons_of_mem _)

theorem parseLiteral_value {literal : String} {u : Value} (h : parseLiteral n literal u s = .ok (v, s')) : v = u := by
  unfold parseLiteral at h
  split at h
  · cases h
    rfl
  · cases h

/-- What the three parsers return, for a number of turns. -/
structure ParsesDoubles (n turns : Nat) : Prop where
  value : ∀ {s s' v}, parseValue n turns s = .ok (v, s') → Numbers IsDouble v
  items : ∀ {s s' v result}, (∀ u ∈ result, Numbers IsDouble u) → parseItems n turns result s = .ok (v, s') →
    Numbers IsDouble v
  members : ∀ {s s' v result}, (∀ p ∈ result, Numbers IsDouble p.2) → parseMembers n turns result s = .ok (v, s') →
    Numbers IsDouble v

theorem parsesDoubles (n turns : Nat) : ParsesDoubles n turns := by
  induction turns with
  | zero =>
    constructor
    · intro s s' v h; rw [parseValue] at h; cases h
    · intro s s' v result _ h; rw [parseItems] at h; cases h
    · intro s s' v result _ h; rw [parseMembers] at h; cases h
  | succ turns ih =>
    constructor
    · intro s s' v h
      rw [parseValue] at h
      split at h
      · rw [parseLiteral_value h]; exact .null
      · rw [parseLiteral_value h]; exact .bool true
      · rw [parseLiteral_value h]; exact .bool false
      · obtain ⟨⟨t, r⟩, -, ht⟩ := bind_ok h
        cases ht
        exact .string t
      · split at h
        · cases h; exact .array [] (fun u hu => absurd hu List.not_mem_nil)
        · exact ih.items (fun u hu => absurd hu List.not_mem_nil) h
      · split at h
        · cases h; exact .object [] (fun p hp => absurd hp List.not_mem_nil)
        · exact ih.members (fun p hp => absurd hp List.not_mem_nil) h
      · split at h
        · exact parseNumber_double h
        · cases h
    · intro s s' v result hresult h
      rw [parseItems] at h
      obtain ⟨⟨u, r⟩, hu, h⟩ := bind_ok h
      have hmore : ∀ w ∈ result ++ [u], Numbers IsDouble w := by
        intro w hw
        rcases List.mem_append.1 hw with hw | hw
        · exact hresult w hw
        · rw [List.mem_singleton.1 hw]
          exact ih.value hu
      dsimp only at h
      split at h
      · cases h; exact .array _ hmore
      · exact ih.items hmore h
      · cases h
    · intro s s' v result hresult h
      rw [parseMembers] at h
      obtain ⟨⟨key, r⟩, -, h⟩ := bind_ok h
      dsimp only at h
      split at h
      · obtain ⟨⟨u, r'⟩, hu, h⟩ := bind_ok h
        have hmore : ∀ p ∈ emplace key u result, Numbers IsDouble p.2 := by
          intro p hp
          rcases mem_emplace hp with rfl | hp
          · exact ih.value hu
          · exact hresult p hp
        dsimp only at h
        split at h
        · cases h; exact .object _ hmore
        · exact ih.members hmore h
        · cases h
      · cases h

/-- Every number of a parsed text is a double. -/
theorem parse_doubles {input : Text} (h : parse input = .ok v) : Numbers IsDouble v := by
  obtain ⟨⟨u, r⟩, hu, h⟩ := bind_ok h
  dsimp only at h
  split at h
  · cases h
    exact (parsesDoubles _ _).value hu
  · cases h

theorem Numbers.field {P : Rat → Prop} {key : Text} {u : Value} (h : Numbers P v) (hu : v.field key = .ok u) :
    Numbers P u := by
  have found : ∀ o : List (Text × Value), (∀ p ∈ o, Numbers P p.2) → find key o = some u → Numbers P u := by
    intro o
    induction o with
    | nil => intro _ hf; cases hf
    | cons p o ih =>
      obtain ⟨k, w⟩ := p
      intro ho hf
      rw [find] at hf
      split at hf
      · cases hf
        exact ho _ List.mem_cons_self
      · exact ih (fun q hq => ho q (List.mem_cons_of_mem _ hq)) hf
  obtain ⟨o, ho, hfind⟩ := bind_ok hu
  cases h with
  | object _ ho' =>
    cases ho
    split at hfind
    · rename_i hf
      cases hfind
      exact found _ ho' hf
    · cases hfind
  | _ => cases ho

/-- The whole part of a double that is not negative. -/
theorem asUint64_whole {m : Nat} (h : Numbers IsDouble v) (hm : v.asUint64 = .ok m) : Binary64.Whole m := by
  obtain ⟨d, hd, hfloor⟩ := bind_ok hm
  cases h with
  | number _ hdouble =>
    cases hd
    split at hfloor
    · cases hfloor
    · rename_i hnonneg
      cases hfloor
      obtain ⟨q, hq, rfl | rfl⟩ := hdouble
      · exact Binary64.whole_floor hq
      · have hzero : Binary64.nearest q = 0 := by
          have := Binary64.nearest_nonneg hq
          linarith
        rw [hzero]
        exact Binary64.whole_of_le (by decide)
  | _ => cases hd

end Json

end Cget
