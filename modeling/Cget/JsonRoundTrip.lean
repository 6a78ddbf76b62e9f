import Cget.Json
import Mathlib.Data.List.TakeWhile
/-!
# Parsing what was printed

`parse` reads back what `stringify` printed, for every indent. The induction is on the value;
it says of each printed value, followed by anything that can follow a value, that the parser
returns the value and stops where it ends. Blanks in front do not matter.
-/

namespace Cget

namespace Json

/-- The values the program prints: whole numbers that a double holds exactly, and objects
whose keys are in order, as in a `std::map`. -/
inductive Printable : Value → Prop
  | null : Printable .null
  | bool (b : Bool) : Printable (.bool b)
  | number (m : Nat) : m ≤ 2 ^ 53 → Printable (.number m)
  | string (s : Text) : Printable (.string s)
  | array (a : List Value) : (∀ v ∈ a, Printable v) → Printable (.array a)
  | object (o : List (Text × Value)) : o.Pairwise (fun p q => p.1 < q.1) → (∀ p ∈ o, Printable p.2) →
      Printable (.object o)

/-- Values that are read back as they are: their numbers are whole numbers among the doubles. -/
inductive Readable : Value → Prop
  | null : Readable .null
  | bool (b : Bool) : Readable (.bool b)
  | number (m : Nat) : Binary64.Whole m → m ≤ 2 ^ 64 → Readable (.number m)
  | string (s : Text) : Readable (.string s)
  | array (a : List Value) : (∀ v ∈ a, Readable v) → Readable (.array a)
  | object (o : List (Text × Value)) : o.Pairwise (fun p q => p.1 < q.1) → (∀ p ∈ o, Readable p.2) →
      Readable (.object o)

theorem Printable.readable {v : Value} (h : Printable v) : Readable v := by
  induction h with
  | null => exact .null
  | bool b => exact .bool b
  | number m hm => exact .number m (Binary64.whole_of_le hm) (hm.trans (by norm_num))
  | string s => exact .string s
  | array a _ ih => exact .array a ih
  | object o hsorted _ ih => exact .object o hsorted ih

/-- What follows a value in printed text: a comma or a new line. -/
def Delimited (s : Text) : Prop := ∃ c r, s = c :: r ∧ (c = 44 ∨ c = 10)

variable {n turns : Nat} {s rest : Text} {indent level : Int} {v : Value}

/-- One step of a reader. -/
theorem ok_bind {α β : Type} {m : Except Exn α} {a : α} {f : α → Except Exn β} {r : Except Exn β} (h : m = .ok a)
    (hf : f a = r) :
    (m >>= f) = r := by
  rw [h]
  exact hf

/-! ## Decimal numbers -/

theorem digitChar_byte : ∀ {d : Nat}, d < 10 → d.digitChar.val.toUInt8 = 48 + d.toUInt8 := by decide

theorem decimal_of_lt {m : Nat} (h : m < 10) : decimal m = [48 + m.toUInt8] := by
  rw [decimal, Nat.toDigits_of_lt_base h, List.map_singleton, digitChar_byte h]

theorem decimal_of_le {m : Nat} (h : 10 ≤ m) : decimal m = decimal (m / 10) ++ [48 + (m % 10).toUInt8] := by
  rw [decimal, Nat.toDigits_of_base_le (by decide) h, List.map_append, List.map_singleton,
    digitChar_byte (Nat.mod_lt _ (by decide))]
  rfl

theorem digit_toNat : ∀ {d : Nat}, d < 10 → (48 + d.toUInt8).toNat = 48 + d := by decide

theorem isDigit_digit : ∀ {d : Nat}, d < 10 → isDigit (48 + d.toUInt8) = true := by decide

theorem isDigit_decimal (m : Nat) : ∀ b ∈ decimal m, isDigit b = true := by
  induction m using Nat.strong_induction_on with
  | _ m ih =>
    rcases Nat.lt_or_ge m 10 with h | h
    · rw [decimal_of_lt h]
      simpa using isDigit_digit h
    · rw [decimal_of_le h]
      intro b hb
      rcases List.mem_append.1 hb with hb | hb
      · exact ih (m / 10) (by omega) b hb
      · rw [List.mem_singleton.1 hb]
        exact isDigit_digit (Nat.mod_lt _ (by decide))

theorem natOf_append (a b : Text) : natOf (a ++ b) = b.foldl (fun n c => 10 * n + (c.toNat - 48)) (natOf a) :=
  List.foldl_append

theorem natOf_decimal (m : Nat) : natOf (decimal m) = m := by
  induction m using Nat.strong_induction_on with
  | _ m ih =>
    rcases Nat.lt_or_ge m 10 with h | h
    · rw [decimal_of_lt h]
      simp [natOf, digit_toNat h]
    · have hmod : m % 10 < 10 := Nat.mod_lt _ (by decide)
      rw [decimal_of_le h, natOf_append, ih (m / 10) (by omega)]
      simp only [List.foldl_cons, List.foldl_nil, digit_toNat hmod]
      omega

/-- The first digit, which is 0 only in 0 itself. -/
theorem decimal_head (m : Nat) : ∃ c r, decimal m = c :: r ∧ isDigit c = true ∧ (c = 48 → m = 0 ∧ r = []) := by
  induction m using Nat.strong_induction_on with
  | _ m ih =>
    rcases Nat.lt_or_ge m 10 with h | h
    · refine ⟨_, [], decimal_of_lt h, isDigit_digit h, fun hc => ⟨?_, rfl⟩⟩
      have := congrArg UInt8.toNat hc
      rw [digit_toNat h] at this
      simpa using this
    · obtain ⟨c, r, hr, hc, hzero⟩ := ih (m / 10) (by omega)
      refine ⟨c, r ++ [48 + (m % 10).toUInt8], by rw [decimal_of_le h, hr]; rfl, hc, fun h0 => ?_⟩
      have := (hzero h0).1
      omega

theorem takeWhile_digits {a : Text} (ha : ∀ b ∈ a, isDigit b = true) : a.takeWhile isDigit = a :=
  List.takeWhile_eq_self_iff.2 ha

theorem dropWhile_digits {a : Text} (ha : ∀ b ∈ a, isDigit b = true) : a.dropWhile isDigit = [] :=
  List.dropWhile_eq_nil_iff.2 ha

theorem Delimited.not_digit (h : Delimited s) : s.dropWhile isDigit = s := by
  obtain ⟨c, r, rfl, rfl | rfl⟩ := h <;> rfl

/-- A whole number that is printed is read as the nearest double. -/
theorem stod_decimal {m : Nat} (hm : m ≤ 2 ^ 64) : stod (decimal m) = .ok (Binary64.nearest m) := by
  obtain ⟨c, r, hr, hc, _⟩ := decimal_head m
  have hminus : (decimal m).head? ≠ some 45 := by
    rw [hr]
    intro h
    rw [Option.some.inj h] at hc
    cases hc
  have hne : decimal m ≠ [] := by simp [hr]
  have hall := isDigit_decimal m
  have hexact : (natOf (decimal m) : Rat) * pow10 (0 - (([] : Text).length : Int)) = m := by
    rw [natOf_decimal]
    simp [pow10]
  obtain ⟨k, hk, hwhole, hle⟩ := Binary64.whole_nearest m
  have hfinite : ¬ (Binary64.overflow ≤ Binary64.nearest (m : Rat)) := by
    rw [not_le, hk]
    calc (k : Rat) ≤ 2 ^ 65 := by exact_mod_cast hle 65 (by omega)
      _ < Binary64.overflow := by
        unfold Binary64.overflow
        exact pow_lt_pow_right₀ (by norm_num) (by norm_num)
  -- Of the numbers too small for 53 bits only 0 is whole.
  have hnormal : ¬ ((m : Rat) < Binary64.smallestNormal ∧ Binary64.nearest (m : Rat) ≠ m) := by
    rintro ⟨hsmall, hne⟩
    have hlt : (m : Rat) < 1 := hsmall.trans (by
      rw [Binary64.smallestNormal, Binary64.pow2_eq_zpow]
      exact zpow_lt_one_of_neg₀ (by norm_num) (by norm_num))
    have hzero : m = 0 := by
      have : m < 1 := by exact_mod_cast hlt
      omega
    exact hne (by rw [hzero]; exact Binary64.nearest_natCast (by norm_num))
  unfold stod
  simp only [hminus, if_false, takeWhile_digits hall, dropWhile_digits hall, List.head?_nil,
    if_true, List.append_nil, hne, false_and, reduceCtorEq, hexact, hfinite, hnormal, or_self]

theorem numberEnd_decimal (m : Nat) (h : Delimited rest) : numberEnd (decimal m ++ rest) = rest := by
  obtain ⟨c, r, hr, hc, hzero⟩ := decimal_head m
  have hminus : c ≠ 45 := by rintro rfl; cases hc
  have hpoint : rest.head? ≠ some 46 := by obtain ⟨c, r, rfl, rfl | rfl⟩ := h <;> simp
  have hexp : ¬ (rest.head? = some 101 ∨ rest.head? = some 69) := by obtain ⟨c, r, rfl, rfl | rfl⟩ := h <;> simp
  have hint : (if (decimal m ++ rest).head? = some 48 then (decimal m ++ rest).tail
      else (decimal m ++ rest).dropWhile isDigit) = rest := by
    split
    · rename_i h0
      rw [hr] at h0 ⊢
      have hc0 : c = 48 := by simpa using h0
      rw [(hzero hc0).2]
      rfl
    · rw [List.dropWhile_append_of_pos (isDigit_decimal m), h.not_digit]
  have hsign : (if (decimal m ++ rest).head? = some 45 then (decimal m ++ rest).tail else decimal m ++ rest) =
      decimal m ++ rest := by
    rw [if_neg]
    rw [hr]
    simpa using hminus
  unfold numberEnd
  simp only [hsign, hint, if_neg hpoint, if_neg hexp]

theorem parseNumber_decimal {m : Nat} (hm : m ≤ 2 ^ 64) (h : Delimited rest) :
    parseNumber (decimal m ++ rest) = .ok (.number (Binary64.nearest m), rest) := by
  unfold parseNumber
  rw [numberEnd_decimal m h, List.length_append, Nat.add_sub_cancel, List.take_left, stod_decimal hm]
  rfl

theorem printNumber_natCast (m : Nat) : printNumber (m : Rat) = decimal m := by
  have hfloor : (m : Rat).floor = m := by exact_mod_cast Rat.floor_intCast (m : Int)
  rw [printNumber, hfloor, if_pos ⟨by simp, Nat.cast_nonneg m⟩, Int.toNat_natCast]

/-! ## Strings -/

/-- What is printed for a byte is read as the byte. -/
theorem parseChars_escapeByte (c : UInt8) (result : Text) :
    parseChars n false result (escapeByte c ++ rest) = parseChars n false (result ++ [c]) rest := by
  unfold escapeByte
  split
  all_goals try rfl
  -- a byte that is printed as it is
  rename_i h34 h92 _ _ _ _ _
  have hq : c ≠ 34 := h34
  have hb : c ≠ 92 := h92
  simp [parseChars, hq, hb]

theorem parseChars_escapeString (t result : Text) :
    parseChars n false result (escapeString t ++ 34 :: rest) = .ok (result ++ t, rest) := by
  induction t generalizing result with
  | nil => simp [escapeString, parseChars]
  | cons c t ih =>
    have hcons : escapeString (c :: t) = escapeByte c ++ escapeString t := List.flatMap_cons
    rw [hcons, List.append_assoc, parseChars_escapeByte, ih]
    simp

theorem parseString_quoted (t : Text) : parseString n (quoted t ++ rest) = .ok (t, rest) := by
  have hform : quoted t ++ rest = 34 :: (escapeString t ++ 34 :: rest) := by simp [quoted]
  rw [hform, parseString, parseChars_escapeString]
  rfl

/-! ## Blanks -/

theorem skipWhitespace_append {blank : Text} (h : ∀ b ∈ blank, isWhitespace b = true) (s : Text) :
    skipWhitespace (blank ++ s) = skipWhitespace s := List.dropWhile_append_of_pos h

theorem skipWhitespace_cons {c : UInt8} (h : isWhitespace c = false) (s : Text) : skipWhitespace (c :: s) = c :: s :=
  List.dropWhile_cons_of_neg (by simp [h])

theorem skipWhitespace_newline (s : Text) : skipWhitespace (10 :: s) = skipWhitespace s := rfl

theorem skipWhitespace_idem (s : Text) : skipWhitespace (skipWhitespace s) = skipWhitespace s := by
  induction s with
  | nil => rfl
  | cons c s ih =>
    cases hc : isWhitespace c with
    | true =>
      have hskip : skipWhitespace (c :: s) = skipWhitespace s := List.dropWhile_cons_of_pos hc
      rw [hskip, ih]
    | false => rw [skipWhitespace_cons hc, skipWhitespace_cons hc]

theorem isWhitespace_digit {c : UInt8} (h : isDigit c = true) : isWhitespace c = false := by
  by_contra hc
  simp only [isWhitespace, Bool.not_eq_false, Bool.or_eq_true, decide_eq_true_eq] at hc
  rcases hc with ((rfl | rfl) | rfl) | rfl <;> cases h

theorem skipWhitespace_appendIndent (count : Int) (s : Text) :
    skipWhitespace (appendIndent count ++ s) = skipWhitespace s := by
  apply skipWhitespace_append
  intro b hb
  rw [(List.mem_replicate.1 hb).2]
  rfl

theorem parseValue_congr {s' : Text} (h : skipWhitespace s = skipWhitespace s') :
    parseValue n turns s = parseValue n turns s' := by
  cases turns with
  | zero => rfl
  | succ turns => rw [parseValue, parseValue, h]

theorem parseItems_congr {s' : Text} (h : skipWhitespace s = skipWhitespace s') (result : List Value) :
    parseItems n turns result s = parseItems n turns result s' := by
  cases turns with
  | zero => rfl
  | succ turns => rw [parseItems, parseItems, parseValue_congr h]

theorem parseMembers_congr {s' : Text} (h : skipWhitespace s = skipWhitespace s') (result : List (Text × Value)) :
    parseMembers n turns result s = parseMembers n turns result s' := by
  cases turns with
  | zero => rfl
  | succ turns => rw [parseMembers, parseMembers, h]

/-! ## Values -/

theorem parseLiteral_append (literal : String) (v : Value) (s : Text) :
    parseLiteral n literal v (text literal ++ s) = .ok (v, s) := by
  have hprefix : (text literal).isPrefixOf (text literal ++ s) = true :=
    List.isPrefixOf_iff_prefix.2 (List.prefix_append _ _)
  rw [parseLiteral, if_pos hprefix, List.drop_left]

/-- A printed value begins with neither a blank nor the end of a list. -/
theorem stringifyInto_head (hv : Readable v) (indent level : Int) :
    ∃ c r, stringifyInto indent level v = c :: r ∧ isWhitespace c = false ∧ c ≠ 93 := by
  cases hv with
  | null => exact ⟨110, text "ull", rfl, rfl, by decide⟩
  | bool b =>
    cases b with
    | true => exact ⟨116, text "rue", rfl, rfl, by decide⟩
    | false => exact ⟨102, text "alse", rfl, rfl, by decide⟩
  | number m _ _ =>
    obtain ⟨c, r, hr, hc, _⟩ := decimal_head m
    refine ⟨c, r, by rw [stringifyInto, printNumber_natCast, hr], isWhitespace_digit hc, ?_⟩
    rintro rfl
    cases hc
  | string s => exact ⟨34, escapeString s ++ [34], by rw [stringifyInto]; rfl, rfl, by decide⟩
  | array a _ =>
    cases a with
    | nil => exact ⟨91, [93], by rw [stringifyInto], rfl, by decide⟩
    | cons v vs => exact ⟨91, _, by rw [stringifyInto]; rfl, rfl, by decide⟩
  | object o _ _ =>
    cases o with
    | nil => exact ⟨123, [125], by rw [stringifyInto], rfl, by decide⟩
    | cons m ms => exact ⟨123, _, by rw [stringifyInto]; rfl, rfl, by decide⟩

/-- The parser returns `v` on what is printed for it, and stops there. -/
def ReadsBack (n : Nat) (indent : Int) (v : Value) : Prop :=
  ∀ (turns : Nat) (level : Int) (rest : Text), Delimited rest →
  2 * (stringifyInto indent level v ++ rest).length ≤ turns →
    parseValue n turns (stringifyInto indent level v ++ rest) = .ok (v, rest)

/-- The last element of an array. -/
theorem parseItems_last {result : List Value} {s' : Text} (h : parseValue n turns s = .ok (v, s'))
    (hs : skipWhitespace s' = 93 :: rest) : parseItems n (turns + 1) result s = .ok (.array (result ++ [v]), rest) := by
  rw [parseItems]
  refine ok_bind h ?_
  dsimp only
  rw [hs]
  rfl

/-- An element before others. -/
theorem parseItems_more {result : List Value} {s' : Text} (h : parseValue n turns s = .ok (v, s'))
    (hs : skipWhitespace s' = 44 :: rest) :
    parseItems n (turns + 1) result s = parseItems n turns (result ++ [v]) rest := by
  rw [parseItems]
  refine ok_bind h ?_
  dsimp only
  rw [hs]
  rfl

theorem parseItems_stringify {vs : List Value} (hvs : ∀ v ∈ vs, ReadsBack n indent v) (hne : vs ≠ [])
    (level close : Int) (result : List Value) (rest : Text)
    (hturns : 2 * (stringifyItems indent level vs ++ (appendIndent close ++ 93 :: rest)).length + 1 ≤ turns) :
    parseItems n turns result (stringifyItems indent level vs ++ (appendIndent close ++ 93 :: rest)) =
      .ok (.array (result ++ vs), rest) := by
  induction vs generalizing turns result with
  | nil => exact absurd rfl hne
  | cons v vs ih =>
    obtain ⟨turns, rfl⟩ : ∃ t, turns = t + 1 := ⟨turns - 1, by omega⟩
    -- what follows the first value
    let tail : Text := (if vs.isEmpty then [10] else [44, 10]) ++
      (stringifyItems indent level vs ++ (appendIndent close ++ 93 :: rest))
    have hform : stringifyItems indent level (v :: vs) ++ (appendIndent close ++ 93 :: rest) =
        appendIndent level ++ (stringifyInto indent level v ++ tail) := by
      simp [stringifyItems, tail]
    have htail : Delimited tail := by
      cases vs with
      | nil => exact ⟨10, _, rfl, .inr rfl⟩
      | cons u us => exact ⟨44, _, rfl, .inl rfl⟩
    rw [hform] at hturns ⊢
    simp only [List.length_append] at hturns
    have hvalue : parseValue n turns (appendIndent level ++ (stringifyInto indent level v ++ tail)) =
        .ok (v, tail) := by
      rw [parseValue_congr (skipWhitespace_appendIndent _ _)]
      apply hvs v List.mem_cons_self
      · exact htail
      · simp only [List.length_append]
        omega
    cases vs with
    | nil =>
      have hskip : skipWhitespace tail = 93 :: rest := skipWhitespace_appendIndent _ _
      exact parseItems_last hvalue hskip
    | cons u us =>
      have hskip : skipWhitespace tail =
          44 :: 10 :: (stringifyItems indent level (u :: us) ++ (appendIndent close ++ 93 :: rest)) := rfl
      rw [parseItems_more hvalue hskip, parseItems_congr (skipWhitespace_newline _)]
      have hnext : parseItems n turns (result ++ [v])
          (stringifyItems indent level (u :: us) ++ (appendIndent close ++ 93 :: rest)) =
          .ok (.array (result ++ [v] ++ u :: us), rest) := by
        apply ih (fun w hw => hvs w (List.mem_cons_of_mem _ hw)) (List.cons_ne_nil u us)
        simp only [tail, List.isEmpty_cons, List.length_append, Bool.false_eq_true, if_false, List.length_cons,
          List.length_nil] at hturns ⊢
        omega
      rw [List.append_assoc] at hnext
      exact hnext

/-- A key after all others goes to the end. -/
theorem emplace_last {key : Text} {o : List (Text × Value)} (h : ∀ p ∈ o, p.1 < key) (v : Value) :
    emplace key v o = o ++ [(key, v)] := by
  induction o with
  | nil => rfl
  | cons p o ih =>
    obtain ⟨k, u⟩ := p
    have hk : k < key := h (k, u) List.mem_cons_self
    have hnot : ¬ key < k := List.lt_asymm hk
    have hne : key ≠ k := by
      rintro rfl
      exact List.lt_irrefl key hk
    rw [emplace, if_neg hnot, if_neg hne, ih fun p hp => h p (List.mem_cons_of_mem _ hp)]
    rfl

/-- The last entry of an object. -/
theorem parseMembers_last {key : Text} {result : List (Text × Value)} {s₁ s₂ s₃ : Text}
    (hkey : parseString n (skipWhitespace s) = .ok (key, s₁)) (hcolon : skipWhitespace s₁ = 58 :: s₂)
    (h : parseValue n turns s₂ = .ok (v, s₃)) (hs : skipWhitespace s₃ = 125 :: rest) :
    parseMembers n (turns + 1) result s = .ok (.object (emplace key v result), rest) := by
  rw [parseMembers]
  refine ok_bind hkey ?_
  dsimp only
  rw [hcolon]
  refine ok_bind h ?_
  dsimp only
  rw [hs]
  rfl

/-- An entry before others. -/
theorem parseMembers_more {key : Text} {result : List (Text × Value)} {s₁ s₂ s₃ : Text}
    (hkey : parseString n (skipWhitespace s) = .ok (key, s₁)) (hcolon : skipWhitespace s₁ = 58 :: s₂)
    (h : parseValue n turns s₂ = .ok (v, s₃)) (hs : skipWhitespace s₃ = 44 :: rest) :
    parseMembers n (turns + 1) result s = parseMembers n turns (emplace key v result) rest := by
  rw [parseMembers]
  refine ok_bind hkey ?_
  dsimp only
  rw [hcolon]
  refine ok_bind h ?_
  dsimp only
  rw [hs]
  rfl

theorem parseMembers_stringify {ms : List (Text × Value)} (hms : ∀ p ∈ ms, ReadsBack n indent p.2)
    (hsorted : ms.Pairwise (fun p q => p.1 < q.1)) (hne : ms ≠ []) (level close : Int) (result : List (Text × Value))
    (rest : Text) (hresult : ∀ p ∈ result, ∀ q ∈ ms, p.1 < q.1)
    (hturns : 2 * (stringifyMembers indent level ms ++ (appendIndent close ++ 125 :: rest)).length + 1 ≤ turns) :
    parseMembers n turns result (stringifyMembers indent level ms ++ (appendIndent close ++ 125 :: rest)) =
      .ok (.object (result ++ ms), rest) := by
  induction ms generalizing turns result with
  | nil => exact absurd rfl hne
  | cons m ms ih =>
    obtain ⟨key, v⟩ := m
    obtain ⟨turns, rfl⟩ : ∃ t, turns = t + 1 := ⟨turns - 1, by omega⟩
    let tail : Text := (if ms.isEmpty then [10] else [44, 10]) ++
      (stringifyMembers indent level ms ++ (appendIndent close ++ 125 :: rest))
    have hform : stringifyMembers indent level ((key, v) :: ms) ++ (appendIndent close ++ 125 :: rest) =
        appendIndent level ++ (quoted key ++ 58 :: 32 :: (stringifyInto indent level v ++ tail)) := by
      simp [stringifyMembers, tail]
    have htail : Delimited tail := by
      cases ms with
      | nil => exact ⟨10, _, rfl, .inr rfl⟩
      | cons u us => exact ⟨44, _, rfl, .inl rfl⟩
    rw [hform] at hturns ⊢
    simp only [List.length_append, List.length_cons] at hturns
    have hkey : parseString n (skipWhitespace
        (appendIndent level ++ (quoted key ++ 58 :: 32 :: (stringifyInto indent level v ++ tail)))) =
        .ok (key, 58 :: 32 :: (stringifyInto indent level v ++ tail)) := by
      have hquote : skipWhitespace (quoted key ++ 58 :: 32 :: (stringifyInto indent level v ++ tail)) =
          quoted key ++ 58 :: 32 :: (stringifyInto indent level v ++ tail) := skipWhitespace_cons rfl _
      rw [skipWhitespace_appendIndent, hquote, parseString_quoted]
    have hvalue : parseValue n turns (32 :: (stringifyInto indent level v ++ tail)) = .ok (v, tail) := by
      have hblank : skipWhitespace (32 :: (stringifyInto indent level v ++ tail)) =
          skipWhitespace (stringifyInto indent level v ++ tail) := rfl
      rw [parseValue_congr hblank]
      apply hms (key, v) List.mem_cons_self
      · exact htail
      · simp only [List.length_append]
        omega
    have hplace : emplace key v result = result ++ [(key, v)] :=
      emplace_last (fun p hp => hresult p hp (key, v) List.mem_cons_self) v
    rw [List.pairwise_cons] at hsorted
    have hcolon : skipWhitespace (58 :: 32 :: (stringifyInto indent level v ++ tail)) =
        58 :: 32 :: (stringifyInto indent level v ++ tail) :=
      skipWhitespace_cons rfl _
    cases ms with
    | nil =>
      have hskip : skipWhitespace tail = 125 :: rest := skipWhitespace_appendIndent _ _
      rw [parseMembers_last hkey hcolon hvalue hskip, hplace]
    | cons u us =>
      have hskip : skipWhitespace tail =
          44 :: 10 :: (stringifyMembers indent level (u :: us) ++ (appendIndent close ++ 125 :: rest)) := rfl
      rw [parseMembers_more hkey hcolon hvalue hskip, parseMembers_congr (skipWhitespace_newline _), hplace]
      have hnext : parseMembers n turns (result ++ [(key, v)])
          (stringifyMembers indent level (u :: us) ++ (appendIndent close ++ 125 :: rest)) =
          .ok (.object (result ++ [(key, v)] ++ u :: us), rest) := by
        apply ih (fun p hp => hms p (List.mem_cons_of_mem _ hp)) hsorted.2 (List.cons_ne_nil u us)
        · intro p hp q hq
          rcases List.mem_append.1 hp with hp | hp
          · exact hresult p hp q (List.mem_cons_of_mem _ hq)
          · rw [List.mem_singleton.1 hp]
            exact hsorted.1 q hq
        · simp only [tail, List.isEmpty_cons, List.length_append, Bool.false_eq_true, if_false, List.length_cons,
            List.length_nil] at hturns ⊢
          omega
      rw [List.append_assoc] at hnext
      exact hnext

/-- There is a turn for every printed value. -/
theorem turn_left (hv : Readable v) (h : 2 * (stringifyInto indent level v ++ rest).length ≤ turns) :
    ∃ t, turns = t + 1 := by
  obtain ⟨c, r, hr, _⟩ := stringifyInto_head hv indent level
  rw [hr] at h
  simp only [List.cons_append, List.length_cons] at h
  exact ⟨turns - 1, by omega⟩

theorem parseValue_digit {c : UInt8} (hc : isDigit c = true) (s : Text) :
    parseValue n (turns + 1) (c :: s) = parseNumber (c :: s) := by
  rw [parseValue, skipWhitespace_cons (isWhitespace_digit hc)]
  split
  case h_7 => simp [hc]
  all_goals
    rename_i h
    obtain ⟨rfl, _⟩ := List.cons.inj h
    cases hc

/-- Past the opening of a list, the first value is found. -/
theorem skipWhitespace_items {v : Value} (hv : Readable v) (vs : List Value) (indent level : Int) (s : Text) :
    ∃ c r, skipWhitespace (stringifyItems indent level (v :: vs) ++ s) = c :: r ∧ c ≠ 93 := by
  obtain ⟨c, r, hr, hblank, hc⟩ := stringifyInto_head hv indent level
  rw [stringifyItems]
  simp only [List.append_assoc]
  rw [skipWhitespace_appendIndent, hr, List.cons_append, skipWhitespace_cons hblank]
  exact ⟨c, _, rfl, hc⟩

theorem skipWhitespace_members (m : Text × Value) (ms : List (Text × Value)) (indent level : Int) (s : Text) :
    ∃ r, skipWhitespace (stringifyMembers indent level (m :: ms) ++ s) = 34 :: r := by
  rw [stringifyMembers]
  simp only [List.append_assoc]
  rw [skipWhitespace_appendIndent]
  exact ⟨_, rfl⟩

/-- An array that is not empty. -/
theorem parseValue_array {c : UInt8} {r s' : Text} (hs : skipWhitespace s = c :: r) (hc : c ≠ 93) (h : s' = 91 :: s) :
    parseValue n (turns + 1) s' = parseItems n turns [] s := by
  rw [← parseItems_congr (skipWhitespace_idem s), h, parseValue, skipWhitespace_cons rfl]
  simp only [hs]
  split
  · rename_i heq
    exact absurd (List.cons.inj heq).1 hc
  · rfl

/-- An object that is not empty. -/
theorem parseValue_object {r s' : Text} (hs : skipWhitespace s = 34 :: r) (h : s' = 123 :: s) :
    parseValue n (turns + 1) s' = parseMembers n turns [] s := by
  rw [← parseMembers_congr (skipWhitespace_idem s), h, parseValue, skipWhitespace_cons rfl]
  simp only [hs]
  rfl

theorem readsBack {v : Value} (hv : Readable v) (n : Nat) (indent : Int) : ReadsBack n indent v := by
  induction hv with
  | null =>
    intro turns level rest _ hturns
    obtain ⟨turns, rfl⟩ := turn_left .null hturns
    exact parseLiteral_append "null" .null rest
  | bool b =>
    intro turns level rest _ hturns
    obtain ⟨turns, rfl⟩ := turn_left (.bool b) hturns
    cases b with
    | true => exact parseLiteral_append "true" (.bool true) rest
    | false => exact parseLiteral_append "false" (.bool false) rest
  | number m hm hle =>
    intro turns level rest hrest hturns
    obtain ⟨turns, rfl⟩ := turn_left (.number m hm hle) hturns
    obtain ⟨c, r, hr, hc, _⟩ := decimal_head m
    rw [stringifyInto, printNumber_natCast]
    have hnumber := parseNumber_decimal hle hrest
    rw [Binary64.nearest_whole hm] at hnumber
    rw [hr] at hnumber ⊢
    exact (parseValue_digit hc _).trans hnumber
  | string t =>
    intro turns level rest _ hturns
    obtain ⟨turns, rfl⟩ := turn_left (.string t) hturns
    rw [stringifyInto, parseValue]
    exact ok_bind (parseString_quoted t) rfl
  | array a ha ih =>
    intro turns level rest _ hturns
    obtain ⟨turns, rfl⟩ := turn_left (.array a ha) hturns
    cases a with
    | nil => rfl
    | cons v vs =>
      have hform : stringifyInto indent level (.array (v :: vs)) ++ rest =
          91 :: 10 :: (stringifyItems indent (level + indent) (v :: vs) ++ (appendIndent level ++ 93 :: rest)) := by
        simp [stringifyInto]
      rw [hform] at hturns ⊢
      simp only [List.length_cons] at hturns
      obtain ⟨c, r, hskip, hc⟩ := skipWhitespace_items (ha v List.mem_cons_self) vs indent (level + indent)
        (appendIndent level ++ 93 :: rest)
      have hitems : parseItems n turns []
          (stringifyItems indent (level + indent) (v :: vs) ++ (appendIndent level ++ 93 :: rest)) =
          .ok (.array (v :: vs), rest) :=
        parseItems_stringify ih (List.cons_ne_nil v vs) (level + indent) level [] rest (by omega)
      rw [parseValue_array (skipWhitespace_newline _ ▸ hskip) hc rfl, parseItems_congr (skipWhitespace_newline _)]
      exact hitems
  | object o hsorted ho ih =>
    intro turns level rest _ hturns
    obtain ⟨turns, rfl⟩ := turn_left (.object o hsorted ho) hturns
    cases o with
    | nil => rfl
    | cons m ms =>
      have hform : stringifyInto indent level (.object (m :: ms)) ++ rest =
          123 :: 10 :: (stringifyMembers indent (level + indent) (m :: ms) ++ (appendIndent level ++ 125 :: rest)) := by
        simp [stringifyInto]
      rw [hform] at hturns ⊢
      simp only [List.length_cons] at hturns
      obtain ⟨r, hskip⟩ := skipWhitespace_members m ms indent (level + indent) (appendIndent level ++ 125 :: rest)
      have hmembers : parseMembers n turns []
          (stringifyMembers indent (level + indent) (m :: ms) ++ (appendIndent level ++ 125 :: rest)) =
          .ok (.object (m :: ms), rest) :=
        parseMembers_stringify ih hsorted (List.cons_ne_nil m ms) (level + indent) level [] rest
          (fun p hp => absurd hp List.not_mem_nil) (by omega)
      rw [parseValue_object (skipWhitespace_newline _ ▸ hskip) rfl, parseMembers_congr (skipWhitespace_newline _)]
      exact hmembers

theorem parse_stringify {v : Value} (hv : Readable v) (indent : Int) : parse (stringify v indent) = .ok v := by
  obtain ⟨c, r, hr, hblank, _⟩ := stringifyInto_head hv indent 0
  have hskip : skipWhitespace (stringify v indent) = stringify v indent := by
    rw [stringify, hr, List.cons_append, skipWhitespace_cons hblank]
  have hvalue := readsBack hv (stringify v indent).length indent (2 * (stringify v indent).length + 1) 0 [10]
    ⟨10, [], rfl, .inr rfl⟩ (Nat.le_succ _)
  rw [parse, hskip]
  exact ok_bind hvalue rfl

end Json

/-- What is printed for a value is parsed to the value, whatever the indent. -/
theorem json_round_trip {v : Json.Value} (hv : Json.Printable v) (indent : Int) :
    Json.parse (Json.stringify v indent) = .ok v := Json.parse_stringify hv.readable indent

/-- A list in an object, with bytes that are escaped and the largest number. -/
theorem json_round_trip_nested :
    Json.parse (Json.stringify (.object [([], .array [.null, .number (2 ^ 53 : Nat)]), ([34], .string [0, 92, 10])])
      (-1)) =
      .ok (.object [([], .array [.null, .number (2 ^ 53 : Nat)]), ([34], .string [0, 92, 10])]) := by
  apply json_round_trip
  apply Json.Printable.object
  · simp
  · simp only [List.forall_mem_cons]
    refine ⟨.array _ ?_, .string _, fun p hp => absurd hp List.not_mem_nil⟩
    simp only [List.forall_mem_cons]
    exact ⟨.null, .number _ (le_refl _), fun p hp => absurd hp List.not_mem_nil⟩

end Cget
