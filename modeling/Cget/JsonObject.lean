import Cget.JsonRoundTrip
/-!
# JSON objects

The accessors of `json::Value`, and objects that are built by assigning their entries in
turn: what a field of such an object reads as, and that the object is read back.
-/

namespace Cget

namespace Json

/-- `std::get` of a `Value` that holds something else. -/
def wrongType : Exn := .other (text "std::get: wrong index for variant")

def Value.asString : Value → Except Exn Text
  | .string s => .ok s
  | _ => .error wrongType

def Value.asNumber : Value → Except Exn Rat
  | .number d => .ok d
  | _ => .error wrongType

def Value.asArray : Value → Except Exn (List Value)
  | .array a => .ok a
  | _ => .error wrongType

def Value.asObject : Value → Except Exn (List (Text × Value))
  | .object o => .ok o
  | _ => .error wrongType

/-- Not defined in the source for numbers from 2 ^ 64 on. -/
def Value.asUint64 (v : Value) : Except Exn Nat := do
  let d ← v.asNumber
  if d < 0 then throw (.other (text "json number is negative")) else pure d.floor.toNat

def Value.asUint32 (v : Value) : Except Exn Nat := do
  let n ← v.asUint64
  pure (n % 2 ^ 32)

def Value.isNull : Value → Bool
  | .null => true
  | _ => false

/-- `std::map::find`. -/
def find (key : Text) : List (Text × Value) → Option Value
  | [] => none
  | (k, v) :: o => if key = k then some v else find key o

def Value.contains (v : Value) (key : Text) : Bool :=
  match v with
  | .object o => (find key o).isSome
  | _ => false

/-- `Value::at`. -/
def Value.field (v : Value) (key : Text) : Except Exn Value := do
  let o ← v.asObject
  match find key o with
  | some u => pure u
  | none => throw (.other (text "missing json key: " ++ key))

/-- `out[key] = v`. -/
def assign (key : Text) (v : Value) : List (Text × Value) → List (Text × Value)
  | [] => [(key, v)]
  | (k, u) :: o =>
    if key < k then (key, v) :: (k, u) :: o else if key = k then (k, v) :: o else (k, u) :: assign key v o

/-- An object built by assigning these entries in turn. -/
def objectOf (entries : List (Text × Value)) : Value := .object (entries.foldl (fun o p => assign p.1 p.2 o) [])

def optional {α : Type} (f : α → Value) : Option α → Value
  | some a => f a
  | none => .null

/-! ## Objects built by assignment -/

variable {key : Text} {v : Value} {entries : List (Text × Value)}

theorem find_assign (k : Text) (u : Value) (o : List (Text × Value)) :
    find key (assign k u o) = if key = k then some u else find key o := by
  induction o with
  | nil => rfl
  | cons p o ih =>
    obtain ⟨k', u'⟩ := p
    rw [assign]
    split
    · rfl
    · split
      · rename_i hk
        subst hk
        simp only [find]
        split <;> rfl
      · rename_i hk
        simp only [find, ih]
        by_cases he : key = k'
        · have hne : key ≠ k := fun hkk => hk (hkk.symm.trans he)
          simp [he, Ne.symm hk]
        · simp [he]

/-- The value an object built from these entries has for a key. -/
def lastOf (key : Text) (entries : List (Text × Value)) : Option Value :=
  entries.foldl (fun found p => if key = p.1 then some p.2 else found) none

theorem find_foldl (o : List (Text × Value)) :
    find key (entries.foldl (fun o p => assign p.1 p.2 o) o) =
      entries.foldl (fun found p => if key = p.1 then some p.2 else found) (find key o) := by
  induction entries generalizing o with
  | nil => rfl
  | cons p entries ih =>
    rw [List.foldl_cons, ih, find_assign]
    rfl

theorem field_objectOf (h : lastOf key entries = some v) : (objectOf entries).field key = .ok v := by
  have hfind : find key (entries.foldl (fun o p => assign p.1 p.2 o) []) = some v := (find_foldl []).trans h
  refine ok_bind (a := entries.foldl (fun o p => assign p.1 p.2 o) []) rfl ?_
  rw [hfind]
  rfl

theorem contains_objectOf (h : lastOf key entries = some v) : (objectOf entries).contains key = true := by
  have hfind : find key (entries.foldl (fun o p => assign p.1 p.2 o) []) = some v := (find_foldl []).trans h
  change (find key (entries.foldl (fun o p => assign p.1 p.2 o) [])).isSome = true
  rw [hfind]
  rfl

theorem mem_assign {k : Text} {u : Value} {o : List (Text × Value)} {p : Text × Value} (h : p ∈ assign k u o) :
    p = (k, u) ∨ p ∈ o := by
  induction o with
  | nil => exact .inl (List.mem_singleton.1 h)
  | cons q o ih =>
    obtain ⟨k', u'⟩ := q
    rw [assign] at h
    split at h
    · exact List.mem_cons.1 h
    · split at h
      · rename_i he
        subst he
        exact (List.mem_cons.1 h).imp_right (List.mem_cons_of_mem _)
      · rcases List.mem_cons.1 h with rfl | h
        · exact .inr List.mem_cons_self
        · exact (ih h).imp_right (List.mem_cons_of_mem _)

theorem assign_sorted {k : Text} {u : Value} {o : List (Text × Value)} (h : o.Pairwise (fun p q => p.1 < q.1)) :
    (assign k u o).Pairwise (fun p q => p.1 < q.1) := by
  induction o with
  | nil => exact List.pairwise_singleton _ _
  | cons q o ih =>
    obtain ⟨k', u'⟩ := q
    obtain ⟨hfirst, hrest⟩ := List.pairwise_cons.1 h
    rw [assign]
    split
    · rename_i hlt
      refine List.pairwise_cons.2 ⟨fun p hp => ?_, h⟩
      rcases List.mem_cons.1 hp with rfl | hp
      · exact hlt
      · exact List.lt_trans hlt (hfirst p hp)
    · rename_i hnot
      split
      · rename_i he
        subst he
        exact List.pairwise_cons.2 ⟨hfirst, hrest⟩
      · rename_i hne
        have hlt : k' < k := (List.le_iff_lt_or_eq.1 (List.not_lt.1 hnot)).resolve_right (Ne.symm hne)
        refine List.pairwise_cons.2 ⟨fun p hp => ?_, ih hrest⟩
        rcases mem_assign hp with rfl | hp
        · exact hlt
        · exact hfirst p hp

/-- Assigning entries keeps an object as `std::map` orders it, and what holds of every value. -/
theorem foldl_assign {P : Value → Prop} {o : List (Text × Value)} (h : ∀ p ∈ entries, P p.2)
    (hsorted : o.Pairwise (fun p q => p.1 < q.1)) (ho : ∀ p ∈ o, P p.2) :
    (entries.foldl (fun o p => assign p.1 p.2 o) o).Pairwise (fun p q => p.1 < q.1) ∧
      ∀ p ∈ entries.foldl (fun o p => assign p.1 p.2 o) o, P p.2 := by
  induction entries generalizing o with
  | nil => exact ⟨hsorted, ho⟩
  | cons e es ih =>
    apply ih (fun p hp => h p (List.mem_cons_of_mem _ hp)) (assign_sorted hsorted)
    intro p hp
    rcases mem_assign hp with rfl | hp
    · exact h e List.mem_cons_self
    · exact ho p hp

theorem readable_objectOf (h : ∀ p ∈ entries, Readable p.2) : Readable (objectOf entries) := by
  obtain ⟨hsorted, hall⟩ := foldl_assign h List.Pairwise.nil (fun p hp => absurd hp List.not_mem_nil)
  exact .object _ hsorted hall

theorem ofUint64_eq {n : Nat} (h : n ≤ 2 ^ 53) : Value.ofUint64 n = .number n := by
  rw [Value.ofUint64, Binary64.nearest_natCast h]

/-- Up to `2 ^ 64`, no number is rounded past it. -/
theorem nearest_le {n : Nat} (h : n ≤ 2 ^ 64) :
    ∃ m : Nat, Binary64.nearest (n : Rat) = m ∧ Binary64.Whole m ∧ m ≤ 2 ^ 64 := by
  obtain ⟨m, hm, hwhole, hle⟩ := Binary64.whole_nearest n
  rcases h.lt_or_eq with hlt | rfl
  · exact ⟨m, hm, hwhole, hle 64 hlt⟩
  · exact ⟨2 ^ 64, Binary64.nearest_whole ⟨1, 64, by norm_num, by norm_num⟩, ⟨1, 64, by norm_num, by norm_num⟩, le_rfl⟩

theorem readable_ofUint64 {n : Nat} (h : n ≤ 2 ^ 64) : Readable (.ofUint64 n) := by
  obtain ⟨m, hm, hwhole, hle⟩ := nearest_le h
  rw [Value.ofUint64, hm]
  exact .number m hwhole hle

theorem readable_optional {α : Type} {f : α → Value} {a : Option α} (h : ∀ x ∈ a, Readable (f x)) :
    Readable (optional f a) := by
  cases a with
  | none => exact .null
  | some x => exact h x rfl

/-- What a 64-bit number comes back as: the nearest double, as a whole number again. -/
def throughDouble (n : Nat) : Nat := (Binary64.nearest (n : Rat)).floor.toNat

theorem asUint64_throughDouble (n : Nat) : (Value.ofUint64 n).asUint64 = .ok (throughDouble n) := by
  have hnonneg : ¬ (Binary64.nearest (n : Rat) < 0) := not_lt.2 (Binary64.nearest_nonneg (Nat.cast_nonneg n))
  change (if Binary64.nearest (n : Rat) < 0 then _ else pure (Binary64.nearest (n : Rat)).floor.toNat) = _
  rw [if_neg hnonneg]
  rfl

theorem asUint64_number (n : Nat) : (Value.number n).asUint64 = .ok n := by
  have hfloor : (n : Rat).floor = n := by exact_mod_cast Rat.floor_intCast (n : Int)
  have hnonneg : ¬ ((n : Rat) < 0) := not_lt.2 (Nat.cast_nonneg n)
  change (if (n : Rat) < 0 then _ else pure (n : Rat).floor.toNat) = _
  rw [if_neg hnonneg, hfloor, Int.toNat_natCast]
  rfl

theorem asUint64_ofUint64 {n : Nat} (h : n ≤ 2 ^ 53) : (Value.ofUint64 n).asUint64 = .ok n := by
  rw [ofUint64_eq h, asUint64_number]

theorem throughDouble_le {n : Nat} (h : n ≤ 2 ^ 64) : throughDouble n ≤ 2 ^ 64 := by
  obtain ⟨m, hm, -, hle⟩ := nearest_le h
  have hfloor : (m : Rat).floor = m := by exact_mod_cast Rat.floor_intCast (m : Int)
  rwa [throughDouble, hm, hfloor, Int.toNat_natCast]

theorem throughDouble_eq {n : Nat} (h : n ≤ 2 ^ 53) : throughDouble n = n :=
  Except.ok.inj ((asUint64_throughDouble n).symm.trans (asUint64_ofUint64 h))

theorem throughDouble_iff {n : Nat} : throughDouble n = n ↔ Binary64.Whole n := by
  constructor
  · intro h
    rw [← h]
    exact Binary64.whole_floor (Nat.cast_nonneg n)
  · intro h
    have hfloor : (n : Rat).floor = n := by exact_mod_cast Rat.floor_intCast (n : Int)
    rw [throughDouble, Binary64.nearest_whole h, hfloor, Int.toNat_natCast]

theorem asUint32_throughDouble (n : Nat) : (Value.ofUint64 n).asUint32 = .ok (throughDouble n % 2 ^ 32) := by
  rw [Value.asUint32, asUint64_throughDouble]
  rfl

end Json

end Cget
