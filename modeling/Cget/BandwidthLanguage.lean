import Cget.BandwidthRange
/-!
# The language of bandwidth limits

A limit is written as a number, blanks, a unit and `/s`. `parseBandwidthLimit` takes a little
more than that: the point may be without digits on one side, and there may be blanks before
`/s`. Its numbers are doubles.
-/

namespace Cget

open Json

/-! ## Limits and their parts -/

/-- The units, and what they stand for. No unit is one too. -/
def bandwidthUnits : List (Text × Rat) := [
  ([], 1), (text "b", 1), (text "kb", 1000), (text "mb", 1000 * 1000), (text "gb", 1000 * 1000 * 1000),
  (text "kib", 1024), (text "mib", 1024 * 1024), (text "gib", 1024 * 1024 * 1024)]

/-- `whole.fraction`, blanks, a unit, and blanks before `/s`. -/
structure LimitParts where
  whole : Text
  fraction : Option Text := none
  blanks : Text := []
  unit : Text := []
  multiplier : Rat := 1
  perSecond : Option Text := none

namespace LimitParts

def numberText (p : LimitParts) : Text :=
  match p.fraction with
  | none => p.whole
  | some fraction => p.whole ++ 46 :: fraction

def unitText (p : LimitParts) : Text :=
  match p.perSecond with
  | none => p.unit
  | some blanks => p.unit ++ blanks ++ text "/s"

def written (p : LimitParts) : Text := p.numberText ++ (p.blanks ++ p.unitText)

/-- The number as it is written. -/
def number (p : LimitParts) : Rat := natOf (p.whole ++ p.fraction.getD []) / 10 ^ (p.fraction.getD []).length

/-- A number with digits on at least one side of the point; `/s` only after a unit. -/
structure WellFormed (p : LimitParts) : Prop where
  whole : ∀ c ∈ p.whole, isDigit c = true
  fraction : ∀ c ∈ p.fraction.getD [], isDigit c = true
  digits : p.whole ++ p.fraction.getD [] ≠ []
  blanks : ∀ c ∈ p.blanks, isSpace c = true
  unit : (p.unit, p.multiplier) ∈ bandwidthUnits
  perSecond : ∀ blanks ∈ p.perSecond, p.unit ≠ [] ∧ ∀ c ∈ blanks, isSpace c = true

/-- The same with digits on both sides of a point, and nothing between the unit and `/s`. -/
structure Plain (p : LimitParts) : Prop where
  wellFormed : p.WellFormed
  whole : p.whole ≠ []
  fraction : p.fraction ≠ some []
  perSecond : ∀ blanks ∈ p.perSecond, blanks = []

end LimitParts

variable {value s t : Text} {p : LimitParts} {m q : Rat}

/-! ## Blanks -/

theorem isSpace_toLower (c : UInt8) : isSpace (toLower c) = isSpace c := by
  unfold toLower
  split
  · rename_i h
    have hc : 65 ≤ c.toNat ∧ c.toNat ≤ 90 := by simpa only [UInt8.le_iff_toNat_le, UInt8.reduceToNat] using h
    have hsum : (c + 32).toNat = c.toNat + 32 := by
      rw [UInt8.toNat_add]
      exact Nat.mod_eq_of_lt (by simp only [UInt8.reduceToNat]; omega)
    rw [Bool.eq_iff_iff]
    simp only [isSpace, Bool.or_eq_true, Bool.and_eq_true, decide_eq_true_eq, UInt8.le_iff_toNat_le,
      ← UInt8.toNat_inj, hsum]
    simp only [UInt8.reduceToNat]
    omega
  · rfl

/-- A text with a last byte that is no blank has none at its end. -/
theorem trimEnd_of_last (h : ∀ c ∈ t.getLast?, isSpace c = false) : trimEnd t = t := by
  have hreverse : t.reverse.dropWhile isSpace = t.reverse := by
    cases ht : t.reverse with
    | nil => rfl
    | cons c r =>
      rw [← List.head?_reverse, ht] at h
      exact List.dropWhile_cons_of_neg (by simpa using h c rfl)
  rw [trimEnd, hreverse, List.reverse_reverse]

theorem last_trimEnd (t : Text) : ∀ c ∈ (trimEnd t).getLast?, isSpace c = false := by
  intro c hc
  rw [trimEnd, List.getLast?_reverse] at hc
  have := List.head?_dropWhile_not isSpace t.reverse
  rw [Option.mem_def.1 hc] at this
  simpa using this

theorem trim_eq (t : Text) : trim t = trimEnd (t.dropWhile isSpace) := rfl

/-- The blanks that `trimEnd` takes away. -/
theorem trimEnd_append (t : Text) : ∃ blanks, t = trimEnd t ++ blanks ∧ ∀ c ∈ blanks, isSpace c = true := by
  refine ⟨(t.reverse.takeWhile isSpace).reverse, ?_, fun c hc => ?_⟩
  · rw [trimEnd, ← List.reverse_append, List.takeWhile_append_dropWhile, List.reverse_reverse]
  · exact List.mem_takeWhile_imp (List.mem_reverse.1 hc)

theorem trim_blanks {blanks : Text} (h : ∀ c ∈ blanks, isSpace c = true) (t : Text) : trim (blanks ++ t) = trim t := by
  rw [trim_eq, List.dropWhile_append_of_pos h, ← trim_eq]

theorem trimEnd_blanks {blanks : Text} (h : ∀ c ∈ blanks, isSpace c = true) (t : Text) :
    trimEnd (t ++ blanks) = trimEnd t := by
  rw [trimEnd, List.reverse_append, List.dropWhile_append_of_pos fun c hc => h c (List.mem_reverse.1 hc), trimEnd]

/-- A text with a first byte that is no blank is trimmed at its end only. -/
theorem trim_of_first (h : ∀ c ∈ t.head?, isSpace c = false) : trim t = trimEnd t := by
  cases t with
  | nil => rfl
  | cons c r => rw [trim_eq, List.dropWhile_cons_of_neg (by simpa using h c rfl)]

/-- The text that is looked at does not end in a blank. -/
theorem last_normalizedLimit (value : Text) : ∀ c ∈ (normalizedLimit value).getLast?, isSpace c = false := by
  intro c hc
  rw [normalizedLimit, lower, List.getLast?_map] at hc
  obtain ⟨b, hb, rfl⟩ := Option.mem_map.1 hc
  rw [isSpace_toLower]
  exact last_trimEnd _ b hb

/-! ## The number -/

theorem isSpace_numberByte {c : UInt8} (h : isSpace c = true) : isNumberByte c = false := by
  cases hc : isNumberByte c with
  | false => rfl
  | true =>
    rw [isNumberByte, Bool.or_eq_true, decide_eq_true_eq] at hc
    rcases hc with hc | rfl
    · rw [isSpace_digit hc] at h
      cases h
    · cases h

theorem LimitParts.WellFormed.numberBytes (h : p.WellFormed) : ∀ c ∈ p.numberText, isNumberByte c = true := by
  have hdigit : ∀ c, isDigit c = true → isNumberByte c = true := fun c hc => by rw [isNumberByte, hc, Bool.true_or]
  intro c hc
  have hfraction := h.fraction
  rw [LimitParts.numberText] at hc
  cases hp : p.fraction with
  | none =>
    rw [hp] at hc
    exact hdigit c (h.whole c hc)
  | some fraction =>
    rw [hp] at hc hfraction
    rcases List.mem_append.1 hc with hc | hc
    · exact hdigit c (h.whole c hc)
    · rcases List.mem_cons.1 hc with rfl | hc
      · rfl
      · exact hdigit c (hfraction c hc)

/-- The digits on both sides of the point are found again. -/
theorem LimitParts.WellFormed.digits_numberText (h : p.WellFormed) :
    wholeDigits p.numberText = p.whole ∧ fractionDigits p.numberText = p.fraction.getD [] := by
  have hfraction := h.fraction
  rw [LimitParts.numberText, wholeDigits, fractionDigits]
  cases hp : p.fraction with
  | none =>
    refine ⟨takeWhile_digits h.whole, ?_⟩
    dsimp only
    rw [dropWhile_digits h.whole]
    rfl
  | some fraction =>
    rw [hp] at hfraction
    dsimp only
    rw [List.takeWhile_append_of_pos h.whole, List.dropWhile_append_of_pos h.whole,
      List.takeWhile_cons_of_neg (by decide), List.dropWhile_cons_of_neg (by decide)]
    exact ⟨List.append_nil _, takeWhile_digits hfraction⟩

/-- With one point at most, digits and points are a number. -/
theorem numberText_of_digits {number : Text} (hbytes : ∀ c ∈ number, isNumberByte c = true)
    (hpoint : number.count 46 ≤ 1) :
    number = wholeDigits number ∧ fractionDigits number = [] ∨
      number = wholeDigits number ++ 46 :: fractionDigits number := by
  have hsplit : wholeDigits number ++ number.dropWhile isDigit = number := List.takeWhile_append_dropWhile
  cases hrest : number.dropWhile isDigit with
  | nil =>
    left
    rw [hrest, List.append_nil] at hsplit
    refine ⟨hsplit.symm, ?_⟩
    rw [fractionDigits, hrest]
    rfl
  | cons c r =>
    right
    have hc : isDigit c = false := by
      have := List.head?_dropWhile_not isDigit number
      rw [hrest] at this
      simpa using this
    have hmem : c ∈ number := by
      rw [← hsplit, hrest]
      simp
    have hpointByte : c = 46 := by
      have := hbytes c hmem
      rw [isNumberByte, hc, Bool.false_or, decide_eq_true_eq] at this
      exact this
    subst hpointByte
    have hr : ∀ b ∈ r, isDigit b = true := by
      intro b hb
      have hnumber := hbytes b (by rw [← hsplit, hrest]; simp [hb])
      rw [isNumberByte, Bool.or_eq_true, decide_eq_true_eq] at hnumber
      refine hnumber.resolve_right ?_
      rintro rfl
      rw [← hsplit, hrest, List.count_append, List.count_cons_self] at hpoint
      have := List.count_pos_iff.2 hb
      omega
    have hfraction : fractionDigits number = r := by
      rw [fractionDigits, hrest]
      exact takeWhile_digits hr
    rw [hfraction, ← hrest]
    exact hsplit.symm

/-! ## The unit -/

/-- A unit starts with a letter and ends with one, and not in `/s`. -/
structure UnitForm (u : Text × Rat) : Prop where
  first : ∀ c ∈ u.1.head?, isSpace c = false ∧ isNumberByte c = false
  last : ∀ c ∈ u.1.getLast?, isSpace c = false
  suffix : ¬ (2 < u.1.length ∧ u.1.drop (u.1.length - 2) = text "/s")
  multiplier : multiplierOf u.1 = .ok u.2

theorem unitForm {u : Text × Rat} (h : u ∈ bandwidthUnits) : UnitForm u := by
  have hfirst : ∀ u ∈ bandwidthUnits, ∀ c ∈ u.1.head?, isSpace c = false ∧ isNumberByte c = false := by decide +kernel
  have hlast : ∀ u ∈ bandwidthUnits, ∀ c ∈ u.1.getLast?, isSpace c = false := by decide +kernel
  have hsuffix : ∀ u ∈ bandwidthUnits, ¬ (2 < u.1.length ∧ u.1.drop (u.1.length - 2) = text "/s") := by decide +kernel
  have hmultiplier : ∀ u ∈ bandwidthUnits, multiplierOf u.1 = .ok u.2 := by decide +kernel
  exact ⟨hfirst u h, hlast u h, hsuffix u h, hmultiplier u h⟩

theorem mem_units_of_multiplier {unit : Text} (h : multiplierOf unit = .ok m) : (unit, m) ∈ bandwidthUnits := by
  unfold multiplierOf at h
  split at h
  · cases h
    rename_i hunit
    rcases hunit with rfl | rfl <;> simp [bandwidthUnits]
  repeat' split at h
  all_goals first | (subst unit; cases h; simp [bandwidthUnits]) | cases h

/-- The unit of a well-formed limit is found again. -/
theorem LimitParts.WellFormed.unitOf (h : p.WellFormed) : unitOf (p.blanks ++ p.unitText) = p.unit := by
  obtain ⟨hfirst, hlast, hsuffix, -⟩ := unitForm h.unit
  dsimp only at hfirst hlast hsuffix
  have hperSecond := h.perSecond
  rw [Cget.unitOf, trim_blanks h.blanks, LimitParts.unitText]
  cases hp : p.perSecond with
  | none =>
    dsimp only
    rw [trim_of_first fun c hc => (hfirst c hc).1, trimEnd_of_last hlast, if_neg hsuffix]
  | some blanks =>
    obtain ⟨hne, hblanks⟩ := hperSecond blanks hp
    dsimp only
    have hhead : ∀ t : Text, ∀ c ∈ (p.unit ++ t).head?, isSpace c = false := by
      intro t c hc
      cases hu : p.unit with
      | nil => exact absurd hu hne
      | cons b r =>
        rw [hu] at hc hfirst
        exact (hfirst c hc).1
    have hend : ∀ c ∈ (p.unit ++ blanks ++ text "/s").getLast?, isSpace c = false := by
      intro c hc
      rw [List.getLast?_append] at hc
      cases hc
      rfl
    have htrim : trim (p.unit ++ blanks ++ text "/s") = p.unit ++ blanks ++ text "/s" := by
      rw [trim_of_first (by rw [List.append_assoc]; exact hhead _), trimEnd_of_last hend]
    have hlength : (p.unit ++ blanks ++ text "/s").length = (p.unit ++ blanks).length + 2 := List.length_append
    have hunit : 0 < p.unit.length := List.length_pos_iff.2 hne
    have hlong : 2 < (p.unit ++ blanks ++ text "/s").length := by
      rw [hlength, List.length_append]
      omega
    have hdrop : (p.unit ++ blanks ++ text "/s").drop ((p.unit ++ blanks ++ text "/s").length - 2) = text "/s" := by
      rw [hlength, Nat.add_sub_cancel, List.drop_left]
    rw [htrim, if_pos ⟨hlong, hdrop⟩, hlength, Nat.add_sub_cancel, List.take_left, trim_of_first (hhead blanks),
      trimEnd_blanks hblanks, trimEnd_of_last hlast]

/-- A text with a unit, without blanks at its end, is made of the parts of a limit. -/
theorem parts_of_unitOf (hlast : ∀ c ∈ t.getLast?, isSpace c = false) (hunit : multiplierOf (unitOf t) = .ok m) :
    ∃ p : LimitParts, p.blanks ++ p.unitText = t ∧ (∀ c ∈ p.blanks, isSpace c = true) ∧
      (p.unit, p.multiplier) ∈ bandwidthUnits ∧
      p.multiplier = m ∧ ∀ blanks ∈ p.perSecond, p.unit ≠ [] ∧ ∀ c ∈ blanks, isSpace c = true := by
  have hsplit : t.takeWhile isSpace ++ t.dropWhile isSpace = t := List.takeWhile_append_dropWhile
  have hblanks : ∀ c ∈ t.takeWhile isSpace, isSpace c = true := fun c hc => List.mem_takeWhile_imp hc
  have hhead := List.head?_dropWhile_not isSpace t
  have htrim : trim t = t.dropWhile isSpace := by
    rw [trim_eq]
    refine trimEnd_of_last fun c hc => hlast c ?_
    rw [← hsplit, List.getLast?_append, Option.mem_def.1 hc]
    rfl
  rw [Cget.unitOf, htrim] at hunit
  generalize t.dropWhile isSpace = u at hsplit hhead hunit
  have hmem := mem_units_of_multiplier hunit
  by_cases hsuffix : 2 < u.length ∧ u.drop (u.length - 2) = text "/s"
  · rw [if_pos hsuffix] at hmem
    obtain ⟨hlong, hdrop⟩ := hsuffix
    have hfront : u.take (u.length - 2) ++ text "/s" = u := by rw [← hdrop, List.take_append_drop]
    have hfirst : ∀ c ∈ (u.take (u.length - 2)).head?, isSpace c = false := by
      intro c hc
      rw [← hfront, List.head?_append, Option.mem_def.1 hc] at hhead
      simpa using hhead
    obtain ⟨between, hbetween, hspace⟩ := trimEnd_append (u.take (u.length - 2))
    rw [trim_of_first hfirst] at hmem
    refine ⟨{ whole := [], blanks := t.takeWhile isSpace, unit := trimEnd (u.take (u.length - 2)), multiplier := m,
              perSecond := some between }, ?_, hblanks, hmem, rfl, ?_⟩
    · rw [LimitParts.unitText]
      dsimp only
      rw [← hbetween, hfront, hsplit]
    · rintro _ ⟨⟩
      refine ⟨fun hnil => ?_, hspace⟩
      dsimp only at hnil
      rw [hnil, List.nil_append] at hbetween
      cases hu : u.take (u.length - 2) with
      | nil =>
        have hlength := congrArg List.length hu
        rw [List.length_take, List.length_nil] at hlength
        omega
      | cons c r =>
        have hc := hfirst c (by rw [hu]; rfl)
        rw [hspace c (by rw [← hbetween, hu]; exact List.mem_cons_self)] at hc
        cases hc
  · rw [if_neg hsuffix] at hmem
    refine ⟨{ whole := [], blanks := t.takeWhile isSpace, unit := u, multiplier := m }, ?_, hblanks, hmem, rfl, ?_⟩
    · exact hsplit
    · rintro _ ⟨⟩

/-! ## What is read of a limit -/

theorem LimitParts.WellFormed.boundary (h : p.WellFormed) :
    ∀ c ∈ (p.blanks ++ p.unitText).head?, isNumberByte c = false := by
  intro c hc
  have hfirst := (unitForm h.unit).first
  dsimp only at hfirst
  have hblanks := h.blanks
  cases hb : p.blanks with
  | cons b r =>
    rw [hb] at hc hblanks
    cases hc
    exact isSpace_numberByte (hblanks c List.mem_cons_self)
  | nil =>
    rw [hb, List.nil_append, LimitParts.unitText] at hc
    cases hp : p.perSecond with
    | none =>
      rw [hp] at hc
      exact (hfirst c hc).2
    | some blanks =>
      have hne := (h.perSecond blanks hp).1
      rw [hp] at hc
      cases hu : p.unit with
      | nil => exact absurd hu hne
      | cons b r =>
        rw [hu] at hc hfirst
        exact (hfirst c hc).2

/-- The number and the unit are separated where they were put together. -/
theorem LimitParts.WellFormed.parts (h : p.WellFormed) :
    numberPart p.written = p.numberText ∧ unitPart p.written = p.blanks ++ p.unitText := by
  have hnumber : numberPart p.written = p.numberText := by
    rw [numberPart, LimitParts.written, List.takeWhile_append_of_pos h.numberBytes]
    have hboundary := h.boundary
    cases hrest : p.blanks ++ p.unitText with
    | nil => exact List.append_nil _
    | cons c r =>
      rw [hrest] at hboundary
      rw [List.takeWhile_cons_of_neg (by simpa using hboundary c rfl), List.append_nil]
  refine ⟨hnumber, ?_⟩
  rw [unitPart, hnumber, LimitParts.written, List.drop_left]

theorem LimitParts.WellFormed.decimalValue (h : p.WellFormed) :
    decimalValue p.numberText = p.number ∧ HasDigits p.numberText := by
  obtain ⟨hwhole, hfraction⟩ := h.digits_numberText
  refine ⟨?_, ?_⟩
  · rw [Cget.decimalValue, hwhole, hfraction, LimitParts.number]
  · rw [HasDigits, hwhole, hfraction]
    exact h.digits

/-- A well-formed limit is read as its number and unit, or it is `0`. -/
theorem LimitParts.WellFormed.readAs (h : p.WellFormed) (hp : p.written = normalizedLimit value) :
    LimitReadAs value p.number p.multiplier ∨ normalizedLimit value = text "0" ∧ p.number = 0 := by
  obtain ⟨hnumber, hunit⟩ := h.parts
  obtain ⟨hvalue, hdigits⟩ := h.decimalValue
  rw [hp] at hnumber hunit
  by_cases hzero : normalizedLimit value = text "0"
  · refine .inr ⟨hzero, ?_⟩
    rw [← hvalue, ← hnumber, hzero]
    decide +kernel
  · refine .inl ⟨?_, hnumber ▸ hdigits, hnumber ▸ hvalue.symm, ?_⟩
    · have hfirst : ∀ s : Text, normalizedLimit value = s → numberPart s ≠ [] := by
        rintro s rfl hnil
        rw [hnumber] at hnil
        rw [hnil] at hdigits
        exact hdigits rfl
      rintro (hword | hword | hword | hword)
      · exact hfirst _ hword (by decide +kernel)
      · exact hfirst _ hword (by decide +kernel)
      · exact hfirst _ hword (by decide +kernel)
      · exact hzero hword
    · rw [hunit, h.unitOf]
      exact (unitForm h.unit).multiplier

/-- What is read as a number with one point at most, and a unit, is a well-formed limit. -/
theorem LimitReadAs.wellFormed (h : LimitReadAs value q m)
    (hpoint : (numberPart (normalizedLimit value)).count 46 ≤ 1) :
    ∃ p : LimitParts, p.WellFormed ∧ p.written = normalizedLimit value ∧ p.number = q ∧ p.multiplier = m := by
  have hsplit : numberPart (normalizedLimit value) ++ unitPart (normalizedLimit value) = normalizedLimit value := by
    have hprefix : numberPart (normalizedLimit value) <+: normalizedLimit value := List.takeWhile_prefix _
    rw [unitPart]
    exact List.prefix_append_drop hprefix |>.symm
  have hlast : ∀ c ∈ (unitPart (normalizedLimit value)).getLast?, isSpace c = false := by
    intro c hc
    refine last_normalizedLimit value c ?_
    rw [← hsplit, List.getLast?_append, Option.mem_def.1 hc]
    rfl
  obtain ⟨u, hu, hblanks, hunit, hmultiplier, hperSecond⟩ := parts_of_unitOf hlast h.unit
  have hbytes : ∀ c ∈ numberPart (normalizedLimit value), isNumberByte c = true := fun c hc => List.mem_takeWhile_imp hc
  have hvalue := h.number
  have hdigits := h.digits
  rcases numberText_of_digits hbytes hpoint with ⟨hnumber, hnone⟩ | hnumber
  · refine ⟨{ u with whole := wholeDigits (numberPart (normalizedLimit value)), fraction := none },
      ⟨wholeDigits_digit, fun c hc => (by cases hc), ?_, hblanks, hunit, hperSecond⟩, ?_, ?_, hmultiplier⟩
    · rw [HasDigits, hnone] at hdigits
      exact hdigits
    · conv_rhs => rw [← hsplit, hnumber, ← hu]
      rfl
    · rw [hvalue, Cget.decimalValue, hnone]
      rfl
  · refine ⟨{ u with whole := wholeDigits (numberPart (normalizedLimit value)),
                     fraction := some (fractionDigits (numberPart (normalizedLimit value))) },
      ⟨wholeDigits_digit, fractionDigits_digit, hdigits, hblanks, hunit, hperSecond⟩, ?_, hvalue.symm, hmultiplier⟩
    conv_rhs => rw [← hsplit, hnumber, ← hu]
    rfl

/-! ## The language -/

/-- A limit that means none. -/
def IsUnlimited (well : LimitParts → Prop) (value : Text) : Prop :=
  normalizedLimit value ∈ [text "unlimited", text "none", text "off"] ∨
    ∃ p, well p ∧ p.written = normalizedLimit value ∧ p.number = 0

/-- A limit of a number of bytes other than 0, with what its number and unit give as bytes. -/
def IsLimit (well : LimitParts → Prop) (bytes : Rat → Rat → Option Nat) (value : Text) (n : Nat) : Prop :=
  ∃ p, well p ∧ p.written = normalizedLimit value ∧ p.number ≠ 0 ∧ bytes p.number p.multiplier = some n

/-- Limits are read as such, and everything else is an invalid command. -/
structure ReadsLimits (well : LimitParts → Prop) (bytes : Rat → Rat → Option Nat) (value : Text) : Prop where
  unlimited : parseBandwidthLimit value = .ok none ↔ IsUnlimited well value
  limited : ∀ n : Nat, (∃ limit : UInt64, parseBandwidthLimit value = .ok (some limit) ∧ limit.toNat = n) ↔
    IsLimit well bytes value n
  rejected : ¬ IsUnlimited well value → (∀ n, ¬ IsLimit well bytes value n) →
    ∃ what, parseBandwidthLimit value = .error (.cget .invalidCommandError what)

/-- Bytes from exact numbers, of any size. -/
def exactBytes (number multiplier : Rat) : Option Nat := some (number * multiplier).floor.toNat

/-- Bytes from doubles, if the number is a double's and the product is below `2 ^ 64`. -/
def doubleBytes (number multiplier : Rat) : Option Nat :=
  let bytes := Binary64.nearest (Binary64.nearest number * multiplier)
  if OutOfDoubles number ∨ 2 ^ 64 ≤ bytes then none else some bytes.floor.toNat

/-- No second point in the number, a unit also behind a zero, and no product that is rounded to `2 ^ 64`. -/
structure RegularLimit (value : Text) : Prop where
  onePoint : (numberPart (normalizedLimit value)).count 46 ≤ 1
  zeroUnit : HasDigits (numberPart (normalizedLimit value)) → decimalValue (numberPart (normalizedLimit value)) = 0 →
    ∃ m, multiplierOf (unitOf (unitPart (normalizedLimit value))) = .ok m
  inRange : ¬ RoundsToLimit value

/-- A limit that is neither unlimited nor a number of bytes is an invalid command, if it is one at all. -/
theorem multiplierOf_error {unit : Text} {e : Exn} (h : multiplierOf unit = .error e) :
    ∃ what, e = .cget .invalidCommandError what := by
  unfold multiplierOf at h
  repeat' split at h
  all_goals cases h
  exact ⟨_, rfl⟩

/-- What is returned for a limit that is read as a number and a unit. -/
theorem LimitReadAs.result (h : LimitReadAs value q m) (hrange : ¬ RoundsToLimit value) :
    parseBandwidthLimit value = .ok none ∧ q = 0 ∨
      (∃ n : UInt64, parseBandwidthLimit value = .ok (some n) ∧ q ≠ 0 ∧ doubleBytes q m = some n.toNat) ∨
      (∃ what, parseBandwidthLimit value = .error (.cget .invalidCommandError what)) ∧ q ≠ 0 ∧
      doubleBytes q m = none := by
  rw [parseBandwidthLimit_bytes, h.bytes, doubleBytes]
  obtain ⟨hlow, hhigh⟩ := product_limit h.unit h.nonneg
  have hnot : Binary64.nearest (Binary64.nearest q * m) ≠ 2 ^ 64 := fun heq =>
    hrange ⟨q, m, h, hlow.1 heq.ge, hhigh.1 heq.le⟩
  by_cases hout : OutOfDoubles q
  · have hzero : q ≠ 0 := by
      rintro rfl
      exact absurd hout (by decide +kernel)
    rw [if_pos hout, if_pos (.inl hout)]
    exact .inr (.inr ⟨⟨_, rfl⟩, hzero, rfl⟩)
  rw [if_neg hout]
  by_cases hzero : q = 0
  · rw [if_pos hzero]
    exact .inl ⟨rfl, hzero⟩
  rw [if_neg hzero]
  by_cases hlarge : 2 ^ 64 < Binary64.nearest (Binary64.nearest q * m)
  · rw [if_pos hlarge, if_pos (.inr hlarge.le)]
    exact .inr (.inr ⟨⟨_, rfl⟩, hzero, rfl⟩)
  · have hless : Binary64.nearest (Binary64.nearest q * m) < 2 ^ 64 := lt_of_le_of_ne (not_lt.1 hlarge) hnot
    rw [if_neg hlarge, if_neg (not_or.2 ⟨hout, not_le.2 hless⟩)]
    refine .inr (.inl ⟨_, rfl, hzero, congrArg some ?_⟩)
    have hfloor : (Binary64.nearest (Binary64.nearest q * m)).floor.toNat < 2 ^ 64 := by
      have : (Binary64.nearest (Binary64.nearest q * m)).floor < 2 ^ 64 := Rat.floor_lt_iff.2 (by exact_mod_cast hless)
      omega
    exact (UInt64.toNat_ofNat_of_lt' hfloor).symm

/-- Two readings of one text are the same. -/
theorem LimitReadAs.unique {q' m' : Rat} (h : LimitReadAs value q m) (h' : LimitReadAs value q' m') : q' = q ∧ m' = m :=
  ⟨h'.number.trans h.number.symm, Except.ok.inj (h'.unit.symm.trans h.unit)⟩

/-- A word is no limit. -/
theorem isLimit_word {bytes : Rat → Rat → Option Nat} {n : Nat} (hword : IsUnlimitedWord (normalizedLimit value)) :
    ¬ IsLimit LimitParts.WellFormed bytes value n := by
  rintro ⟨p, hp, hwritten, hne, -⟩
  rcases hp.readAs hwritten with hread | ⟨-, hzero⟩
  · exact hread.word hword
  · exact hne hzero

/-- `0` is a limit of 0. -/
theorem isUnlimited_word (hword : IsUnlimitedWord (normalizedLimit value)) :
    IsUnlimited LimitParts.WellFormed value := by
  rcases hword with hword | hword | hword | hword
  · exact .inl (by simp [hword])
  · exact .inl (by simp [hword])
  · exact .inl (by simp [hword])
  · refine .inr ⟨{ whole := text "0" }, ⟨?_, ?_, ?_, ?_, ?_, ?_⟩, hword.symm, ?_⟩ <;> decide +kernel

theorem readsLimits_word (hword : IsUnlimitedWord (normalizedLimit value)) :
    ReadsLimits LimitParts.WellFormed doubleBytes value := by
  have hparsed : parseBandwidthLimit value = .ok none := by
    rw [parseBandwidthLimit_bytes, bandwidthBytes_eq, if_pos hword]
    rfl
  refine ⟨iff_of_true hparsed (isUnlimited_word hword), fun n => ?_, fun hnot => absurd (isUnlimited_word hword) hnot⟩
  simp only [hparsed]
  exact iff_of_false (by rintro ⟨_, ⟨⟩, -⟩) (isLimit_word hword)

theorem not_mem_words (hword : ¬ IsUnlimitedWord (normalizedLimit value)) :
    normalizedLimit value ∉ [text "unlimited", text "none", text "off"] := by
  simp only [List.mem_cons, List.not_mem_nil, or_false]
  rintro (h | h | h)
  · exact hword (.inl h)
  · exact hword (.inr (.inl h))
  · exact hword (.inr (.inr (.inl h)))

/-- A limit that is read as a number and a unit is the only one that is written so. -/
theorem readsLimits_read (hread : LimitReadAs value q m) (h : RegularLimit value) :
    ReadsLimits LimitParts.WellFormed doubleBytes value := by
  obtain ⟨p, hp, hwritten, rfl, rfl⟩ := hread.wellFormed h.onePoint
  have hunique : ∀ p' : LimitParts, p'.WellFormed → p'.written = normalizedLimit value →
      p'.number = p.number ∧ p'.multiplier = p.multiplier := by
    intro p' hp' hwritten'
    rcases hp'.readAs hwritten' with hread' | ⟨hzero, -⟩
    · exact hread.unique hread'
    · exact absurd (.inr (.inr (.inr hzero))) hread.word
  have hunlimited : IsUnlimited LimitParts.WellFormed value ↔ p.number = 0 := by
    constructor
    · rintro (h | ⟨p', hp', hwritten', hzero⟩)
      · exact absurd h (not_mem_words hread.word)
      · rw [← (hunique p' hp' hwritten').1, hzero]
    · exact fun hzero => .inr ⟨p, hp, hwritten, hzero⟩
  have hlimit : ∀ n, IsLimit LimitParts.WellFormed doubleBytes value n ↔
      p.number ≠ 0 ∧ doubleBytes p.number p.multiplier = some n := by
    intro n
    constructor
    · rintro ⟨p', hp', hwritten', hrest⟩
      rwa [(hunique p' hp' hwritten').1, (hunique p' hp' hwritten').2] at hrest
    · exact fun hrest => ⟨p, hp, hwritten, hrest⟩
  rcases hread.result h.inRange with ⟨hparsed, hzero⟩ | ⟨limit, hparsed, hne, hbytes⟩ | ⟨⟨what, hparsed⟩, hne, hbytes⟩
  · refine ⟨iff_of_true hparsed (hunlimited.2 hzero), fun n => ?_, fun hnot => absurd (hunlimited.2 hzero) hnot⟩
    simp only [hparsed, hlimit]
    exact iff_of_false (by rintro ⟨_, ⟨⟩, -⟩) fun h => h.1 hzero
  · refine ⟨?_, fun n => ?_, fun _ hnone => absurd ((hlimit _).2 ⟨hne, hbytes⟩) (hnone _)⟩
    · rw [hparsed, hunlimited]
      exact iff_of_false (fun h => (by cases h)) hne
    · simp only [hparsed, hlimit, hbytes]
      constructor
      · rintro ⟨_, ⟨⟩, rfl⟩
        exact ⟨hne, rfl⟩
      · rintro ⟨-, ⟨⟩⟩
        exact ⟨limit, rfl, rfl⟩
  · refine ⟨?_, fun n => ?_, fun _ _ => ⟨what, hparsed⟩⟩
    · rw [hparsed, hunlimited]
      exact iff_of_false (fun h => (by cases h)) hne
    · simp only [hparsed, hlimit, hbytes]
      exact iff_of_false (by rintro ⟨_, ⟨⟩, -⟩) (by rintro ⟨-, ⟨⟩⟩)

/-- Without a reading the limit is given up, and no limit is written so. -/
theorem readsLimits_unread (hword : ¬ IsUnlimitedWord (normalizedLimit value)) (hread : ¬ ∃ q m, LimitReadAs value q m)
    (h : RegularLimit value) : ReadsLimits LimitParts.WellFormed doubleBytes value := by
  have hnone : ∀ p : LimitParts, p.WellFormed → p.written ≠ normalizedLimit value := by
    intro p hp hwritten
    rcases hp.readAs hwritten with hread' | ⟨hzero, -⟩
    · exact hread ⟨_, _, hread'⟩
    · exact hword (.inr (.inr (.inr hzero)))
  have hparsed : ∃ what, parseBandwidthLimit value = .error (.cget .invalidCommandError what) := by
    rw [parseBandwidthLimit_bytes, bandwidthBytes_eq, if_neg hword]
    by_cases hnumber : ¬ HasDigits (numberPart (normalizedLimit value)) ∨
        OutOfDoubles (decimalValue (numberPart (normalizedLimit value)))
    · rw [if_pos hnumber]
      exact ⟨_, rfl⟩
    have hdigits := not_not.1 (not_or.1 hnumber).1
    rw [if_neg hnumber]
    by_cases hzero : decimalValue (numberPart (normalizedLimit value)) = 0
    · obtain ⟨m, hunit⟩ := h.zeroUnit hdigits hzero
      exact absurd ⟨_, m, hword, hdigits, rfl, hunit⟩ hread
    rw [if_neg hzero, bytesOf]
    cases hunit : multiplierOf (unitOf (unitPart (normalizedLimit value))) with
    | ok m => exact absurd ⟨_, m, hword, hdigits, rfl, hunit⟩ hread
    | error e =>
      obtain ⟨what, rfl⟩ := multiplierOf_error hunit
      exact ⟨what, rfl⟩
  obtain ⟨what, hparsed⟩ := hparsed
  refine ⟨?_, fun n => ?_, fun _ _ => ⟨what, hparsed⟩⟩
  · rw [hparsed]
    refine iff_of_false (fun h => (by cases h)) ?_
    rintro (h | ⟨p, hp, hwritten, -⟩)
    · exact not_mem_words hword h
    · exact hnone p hp hwritten
  · simp only [hparsed]
    refine iff_of_false (by rintro ⟨_, ⟨⟩, -⟩) ?_
    rintro ⟨p, hp, hwritten, -⟩
    exact hnone p hp hwritten

/-- A text that is regular is read as what it is written as. -/
theorem bandwidth_language (value : Text) (h : RegularLimit value) :
    ReadsLimits LimitParts.WellFormed doubleBytes value := by
  by_cases hword : IsUnlimitedWord (normalizedLimit value)
  · exact readsLimits_word hword
  by_cases hread : ∃ q m, LimitReadAs value q m
  · obtain ⟨q, m, hread⟩ := hread
    exact readsLimits_read hread h
  · exact readsLimits_unread hword hread h

theorem bandwidth_language_mib : parseBandwidthLimit (text " 1.5MiB /s ") = .ok (some 1572864) ∧
    ReadsLimits LimitParts.WellFormed doubleBytes (text " 1.5MiB /s ") := by
  refine ⟨by decide +kernel, bandwidth_language _ ⟨by decide +kernel, fun _ h => absurd h (by decide +kernel), ?_⟩⟩
  rintro ⟨q, m, hread, hfrom, -⟩
  have hq := hread.number
  have hm := hread.unit
  rw [show decimalValue (numberPart (normalizedLimit (text " 1.5MiB /s "))) = 3 / 2 by decide +kernel] at hq
  rw [show multiplierOf (unitOf (unitPart (normalizedLimit (text " 1.5MiB /s ")))) = .ok
    (1024 * 1024) by decide +kernel] at hm
  cases hm
  rw [hq, FromLimit] at hfrom
  norm_num at hfrom

/-- A number too large is rejected, and a number is only as exact as a double. -/
theorem language_not_exact :
    ¬ ReadsLimits LimitParts.Plain exactBytes (text "20000000000gb") ∧
      ¬ ReadsLimits LimitParts.Plain exactBytes (text "9007199254740993") := by
  have hplain : ∀ p : LimitParts, p.fraction = none → p.blanks = [] → p.perSecond = none → p.whole ≠ [] →
      (∀ c ∈ p.whole, isDigit c = true) → (p.unit, p.multiplier) ∈ bandwidthUnits → p.Plain := by
    intro p hfraction hblanks hperSecond hne hwhole hunit
    refine ⟨⟨hwhole, ?_, ?_, ?_, hunit, ?_⟩, hne, ?_, ?_⟩ <;> simp [hfraction, hblanks, hperSecond, hne]
  constructor
  · intro h
    obtain ⟨limit, hlimit, -⟩ := (h.limited 20000000000000000000).2
      ⟨{ whole := text "20000000000", unit := text "gb", multiplier := 1000 * 1000 * 1000 },
        hplain _ rfl rfl rfl (by decide +kernel) (by decide +kernel) (by decide +kernel),
        by decide +kernel, by decide +kernel, by decide +kernel⟩
    rw [show parseBandwidthLimit (text "20000000000gb") = .error bandwidthOutOfRange by decide +kernel] at hlimit
    cases hlimit
  · intro h
    obtain ⟨limit, hlimit, hn⟩ := (h.limited 9007199254740993).2
      ⟨{ whole := text "9007199254740993" },
        hplain _ rfl rfl rfl (by decide +kernel) (by decide +kernel) (by decide +kernel),
        by decide +kernel, by decide +kernel, by decide +kernel⟩
    rw [show parseBandwidthLimit (text "9007199254740993") = .ok (some 9007199254740992) by decide +kernel] at hlimit
    cases hlimit
    exact absurd hn (by decide)

end Cget
