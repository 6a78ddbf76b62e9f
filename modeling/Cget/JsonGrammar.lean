import Cget.JsonNumbers
/-!
# The grammar of JSON texts

What a text denotes, as a relation: the productions of RFC 8259 with eight escapes, over the
texts that count as numbers. `RfcNumber` are the RFC's; `ScannedNumber` are those that the
scanner lets through. Strings and numbers are read here, values in `JsonAcceptance`.
-/

namespace Cget

namespace Json

/-! ## Texts and what they denote -/

def Blank (w : Text) : Prop := ∀ b ∈ w, isWhitespace b = true

/-- The escapes, each with the byte it stands for. -/
def escapes : List (UInt8 × UInt8) := [(34, 34), (92, 92), (47, 47), (98, 8), (102, 12), (110, 10), (114, 13), (116, 9)]

/-- What stands between the quotes of a string, and the string. -/
inductive Chars : Text → Text → Prop
  | nil : Chars [] []
  | plain {c : UInt8} {s t : Text} : c ≠ 34 → c ≠ 92 → Chars s t → Chars (c :: s) (c :: t)
  | escape {c b : UInt8} {s t : Text} : (c, b) ∈ escapes → Chars s t → Chars (92 :: c :: s) (b :: t)

def Digits (s : Text) : Prop := ∀ b ∈ s, isDigit b = true

def Sign (s : Text) : Prop := s = [] ∨ s = [45]

/-- `0`, or digits that do not begin with `0`. -/
def WholePart (s : Text) : Prop := s = [48] ∨ ∃ c r, s = c :: r ∧ isDigit c = true ∧ c ≠ 48 ∧ Digits r

/-- A point and digits, of which `full` is asked. -/
def Fraction (full : Text → Prop) (s : Text) : Prop := s = [] ∨ ∃ ds, s = 46 :: ds ∧ Digits ds ∧ full ds

/-- `e` or `E`, a sign and digits, of which `full` is asked. -/
def Exponent (full : Text → Prop) (s : Text) : Prop :=
  s = [] ∨ ∃ mark sign ds, s = mark :: (sign ++ ds) ∧ (mark = 101 ∨ mark = 69) ∧
  (sign = [] ∨ sign = [43] ∨ sign = [45]) ∧
    Digits ds ∧ full ds

/-- The numbers of the RFC. -/
def RfcNumber (s : Text) : Prop :=
  ∃ sign whole fraction exponent, s = sign ++ whole ++ fraction ++ exponent ∧ Sign sign ∧ WholePart whole ∧
    Fraction (· ≠ []) fraction ∧ Exponent (· ≠ []) exponent

/-- The same, where digits may be missing after the point, in the exponent, and after a minus. -/
def ScannedNumber (s : Text) : Prop :=
  ∃ sign whole fraction exponent, s = sign ++ whole ++ fraction ++ exponent ∧ Sign sign ∧
    (WholePart whole ∨ whole = [] ∧ sign = [45]) ∧ Fraction (fun _ => True) fraction ∧ Exponent (fun _ => True) exponent

/-- An object has its keys in order, each with the value it is given first. -/
def FirstOf (ms o : List (Text × Value)) : Prop :=
  o.Pairwise (fun p q => p.1 < q.1) ∧ ∀ key, find key o = find key ms

/-- A key in quotes, with blanks around it. -/
inductive KeyText : Text → Text → Prop
  | mk {w w' s key : Text} : Blank w → Chars s key → Blank w' → KeyText (w ++ 34 :: s ++ 34 :: w') key

/-- An entry of an object: the texts on both sides of its colon, and what they denote. -/
structure Member where
  keyText : Text
  key : Text
  valueText : Text
  value : Value

def Member.text (m : Member) : Text := m.keyText ++ 58 :: m.valueText

/-- Texts with commas between them. -/
def commas : List Text → Text
  | [] => []
  | [s] => s
  | s :: t :: ts => s ++ 44 :: commas (t :: ts)

/-- What a text denotes, with the numbers of `number`. -/
inductive JsonText (number : Text → Prop) : Text → Value → Prop
  | null : JsonText number (Cget.text "null") .null
  | bool (b : Bool) : JsonText number (if b then Cget.text "true" else Cget.text "false") (.bool b)
  | number {s : Text} {d : Rat} : number s → stod s = .ok d → JsonText number s (.number d)
  | string {s t : Text} : Chars s t → JsonText number (34 :: s ++ [34]) (.string t)
  | emptyArray {w : Text} : Blank w → JsonText number (91 :: w ++ [93]) (.array [])
  | array {items : List (Text × Value)} : items ≠ [] → (∀ p ∈ items, JsonText number p.1 p.2) →
      JsonText number (91 :: commas (items.map (·.1)) ++ [93]) (.array (items.map (·.2)))
  | emptyObject {w : Text} : Blank w → JsonText number (123 :: w ++ [125]) (.object [])
  | object {members : List Member} {o : List (Text × Value)} : members ≠ [] → (∀ m ∈ members, KeyText m.keyText m.key) →
      (∀ m ∈ members, JsonText number m.valueText m.value) → FirstOf (members.map fun m => (m.key, m.value)) o →
      JsonText number (123 :: commas (members.map (·.text)) ++ [125]) (.object o)
  | blanks {w s w' : Text} {v : Value} : Blank w → JsonText number s v → Blank w' → JsonText number (w ++ s ++ w') v

theorem Fraction.mono {P Q : Text → Prop} (h : ∀ s, P s → Q s) {s : Text} (hs : Fraction P s) : Fraction Q s := by
  rcases hs with rfl | ⟨ds, rfl, hds, hfull⟩
  · exact .inl rfl
  · exact .inr ⟨ds, rfl, hds, h ds hfull⟩

theorem Exponent.mono {P Q : Text → Prop} (h : ∀ s, P s → Q s) {s : Text} (hs : Exponent P s) : Exponent Q s := by
  rcases hs with rfl | ⟨mark, sign, ds, rfl, hmark, hsign, hds, hfull⟩
  · exact .inl rfl
  · exact .inr ⟨mark, sign, ds, rfl, hmark, hsign, hds, h ds hfull⟩

/-- The scanner lets the RFC's numbers through. -/
theorem RfcNumber.scanned {s : Text} (h : RfcNumber s) : ScannedNumber s := by
  obtain ⟨sign, whole, fraction, exponent, rfl, hsign, hwhole, hfraction, hexponent⟩ := h
  exact ⟨sign, whole, fraction, exponent, rfl, hsign, .inl hwhole, hfraction.mono fun _ _ => trivial,
    hexponent.mono fun _ _ => trivial⟩

theorem JsonText.mono {P Q : Text → Prop} (h : ∀ s, P s → Q s) {s : Text} {v : Value} (hs : JsonText P s v) :
    JsonText Q s v := by
  induction hs with
  | null => exact .null
  | bool b => exact .bool b
  | number hnumber hd => exact .number (h _ hnumber) hd
  | string hs => exact .string hs
  | emptyArray hw => exact .emptyArray hw
  | array hne _ ih => exact .array hne ih
  | emptyObject hw => exact .emptyObject hw
  | object hne hkeys _ hfirst ih => exact .object hne hkeys ih hfirst
  | blanks hw _ hw' ih => exact .blanks hw ih hw'

variable {n : Nat} {s s' rest : Text}

/-! ## Strings -/

theorem unescape_iff {c b : UInt8} : unescape c = some b ↔ (c, b) ∈ escapes := by
  constructor
  · intro h
    unfold unescape at h
    split at h
    all_goals cases h
    all_goals decide
  · intro h
    simp only [escapes, List.mem_cons, Prod.mk.injEq, List.not_mem_nil, or_false] at h
    rcases h with ⟨rfl, rfl⟩ | ⟨rfl, rfl⟩ | ⟨rfl, rfl⟩ | ⟨rfl, rfl⟩ | ⟨rfl, rfl⟩ | ⟨rfl, rfl⟩ | ⟨rfl, rfl⟩ | ⟨rfl, rfl⟩
    all_goals rfl

/-- What the loop of `parseString` has read when it returns, before and after a backslash. -/
theorem parseChars_sound (s : Text) : ∀ {result t s' : Text},
    (parseChars n false result s = .ok (t, s') → ∃ body content, s = body ++ 34 :: s' ∧ Chars body content ∧
      t = result ++ content) ∧
      (parseChars n true result s = .ok (t, s') → ∃ c b body content, s = c :: (body ++ 34 :: s') ∧ (c, b) ∈ escapes ∧
        Chars body content ∧ t = result ++ b :: content) := by
  induction s with
  | nil =>
    intro result t s'
    exact ⟨fun h => (by cases h), fun h => (by cases h)⟩
  | cons c s ih =>
    intro result t s'
    constructor
    · intro h
      rw [parseChars, if_neg Bool.false_ne_true] at h
      split at h
      · rename_i hquote
        cases h
        exact ⟨[], [], by rw [hquote]; rfl, .nil, (List.append_nil _).symm⟩
      rename_i hquote
      split at h
      · rename_i hslash
        obtain ⟨e, b, body, content, rfl, he, hbody, rfl⟩ := ih.2 h
        exact ⟨92 :: e :: body, b :: content, by rw [hslash]; rfl, .escape he hbody, rfl⟩
      · rename_i hslash
        obtain ⟨body, content, rfl, hbody, rfl⟩ := ih.1 h
        exact ⟨c :: body, c :: content, rfl, .plain hquote hslash hbody, by simp⟩
    · intro h
      rw [parseChars, if_pos rfl] at h
      split at h
      · rename_i b hb
        obtain ⟨body, content, rfl, hbody, rfl⟩ := ih.1 h
        exact ⟨c, b, body, content, rfl, unescape_iff.1 hb, hbody, by simp⟩
      · cases h

theorem parseChars_complete {body content : Text} (h : Chars body content) (result : Text) :
    parseChars n false result (body ++ 34 :: rest) = .ok (result ++ content, rest) := by
  induction h generalizing result with
  | nil => simp [parseChars]
  | plain hquote hslash _ ih =>
    rw [List.cons_append, parseChars, if_neg Bool.false_ne_true, if_neg hquote, if_neg hslash, ih]
    simp
  | escape he _ ih =>
    rw [List.cons_append, List.cons_append, parseChars, if_neg Bool.false_ne_true, if_neg (by decide),
      if_pos rfl, parseChars, if_pos rfl, unescape_iff.2 he]
    dsimp only
    rw [ih]
    simp

theorem parseString_sound {t : Text} (h : parseString n s = .ok (t, s')) :
    ∃ body, s = 34 :: (body ++ 34 :: s') ∧ Chars body t := by
  unfold parseString at h
  split at h
  · obtain ⟨body, content, rfl, hbody, rfl⟩ := (parseChars_sound _).1 h
    exact ⟨body, rfl, hbody⟩
  · cases h

theorem parseString_complete {body t : Text} (h : Chars body t) :
    parseString n (34 :: (body ++ 34 :: rest)) = .ok (t, rest) := parseChars_complete h []

/-! ## Numbers -/

theorem takeDigits (s : Text) : s = s.takeWhile isDigit ++ s.dropWhile isDigit ∧ Digits (s.takeWhile isDigit) :=
  ⟨List.takeWhile_append_dropWhile.symm, fun _ hb => (List.mem_takeWhile_imp hb)⟩

theorem dropDigits {ds : Text} (hds : Digits ds) (hrest : ∀ c ∈ rest.head?, isDigit c = false) :
    (ds ++ rest).dropWhile isDigit = rest := by
  rw [List.dropWhile_append_of_pos hds]
  cases rest with
  | nil => rfl
  | cons c r => exact List.dropWhile_cons_of_neg (by simp [hrest c rfl])

theorem takeSign (s : Text) :
    ∃ sign, Sign sign ∧ s = sign ++ (if s.head? = some 45 then s.tail else s) ∧ (sign = [] → s.head? ≠ some 45) := by
  split
  · rename_i h
    obtain ⟨r, rfl⟩ := List.head?_eq_some_iff.1 h
    exact ⟨[45], .inr rfl, rfl, fun h => (by cases h)⟩
  · rename_i h
    exact ⟨[], .inl rfl, rfl, fun _ => h⟩

theorem takeWhole (s : Text) :
    ∃ whole, s = whole ++ (if s.head? = some 48 then s.tail else s.dropWhile isDigit) ∧
      (WholePart whole ∨ whole = [] ∧ ∀ c ∈ s.head?, isDigit c = false) := by
  split
  · rename_i h
    obtain ⟨r, rfl⟩ := List.head?_eq_some_iff.1 h
    exact ⟨[48], rfl, .inl (.inl rfl)⟩
  · rename_i h
    obtain ⟨hsplit, hdigits⟩ := takeDigits s
    refine ⟨s.takeWhile isDigit, hsplit, ?_⟩
    cases s with
    | nil => exact .inr ⟨rfl, fun c hc => (by cases hc)⟩
    | cons c s =>
      cases hc : isDigit c with
      | false => exact .inr ⟨List.takeWhile_cons_of_neg (by simp [hc]), fun b hb => (by cases hb; exact hc)⟩
      | true =>
        rw [List.takeWhile_cons_of_pos hc] at hdigits ⊢
        refine .inl (.inr ⟨c, s.takeWhile isDigit, rfl, hc, ?_, fun b hb => hdigits b (List.mem_cons_of_mem _ hb)⟩)
        rintro rfl
        exact h rfl

theorem takeFraction (s : Text) :
    ∃ fraction, s = fraction ++ (if s.head? = some 46 then s.tail.dropWhile isDigit else s) ∧
    Fraction (fun _ => True) fraction := by
  split
  · rename_i h
    obtain ⟨r, rfl⟩ := List.head?_eq_some_iff.1 h
    obtain ⟨hsplit, hdigits⟩ := takeDigits r
    exact ⟨46 :: r.takeWhile isDigit, congrArg (List.cons 46) hsplit, .inr ⟨_, rfl, hdigits, trivial⟩⟩
  · exact ⟨[], rfl, .inl rfl⟩

theorem takeExponent (s : Text) :
    ∃ exponent, s = exponent ++ (if s.head? = some 101 ∨ s.head? = some 69 then
        (if s.tail.head? = some 43 ∨ s.tail.head? = some 45 then s.tail.tail else s.tail).dropWhile isDigit else s) ∧
      Exponent (fun _ => True) exponent := by
  split
  · rename_i h
    obtain ⟨mark, r, rfl, hmark⟩ : ∃ mark r, s = mark :: r ∧ (mark = 101 ∨ mark = 69) := by
      rcases h with h | h
      all_goals
        obtain ⟨r, rfl⟩ := List.head?_eq_some_iff.1 h
        exact ⟨_, r, rfl, by decide⟩
    obtain ⟨sign, hsign, hr⟩ : ∃ sign : Text, (sign = [] ∨ sign = [43] ∨ sign = [45]) ∧
        r = sign ++ (if r.head? = some 43 ∨ r.head? = some 45 then r.tail else r) := by
      split
      · rename_i h
        rcases h with h | h
        all_goals
          obtain ⟨r', rfl⟩ := List.head?_eq_some_iff.1 h
          exact ⟨[_], by decide, rfl⟩
      · exact ⟨[], .inl rfl, rfl⟩
    rw [List.tail_cons]
    generalize hdigits : (if r.head? = some 43 ∨ r.head? = some 45 then r.tail else r) = r' at hr ⊢
    obtain ⟨hsplit, hds⟩ := takeDigits r'
    refine ⟨mark :: (sign ++ r'.takeWhile isDigit), ?_, .inr ⟨mark, sign, _, rfl, hmark, hsign, hds, trivial⟩⟩
    rw [List.cons_append, List.append_assoc, ← hsplit, ← hr]
  · exact ⟨[], rfl, .inl rfl⟩

/-- What the scanner passes over, from a minus or a digit on. -/
theorem numberEnd_sound (h : (s.head?.map fun c => c = 45 || isDigit c) = some true) :
    ∃ t, s = t ++ numberEnd s ∧ ScannedNumber t := by
  obtain ⟨sign, hsign, h₁, hminus⟩ := takeSign s
  obtain ⟨whole, h₂, hwhole⟩ := takeWhole (if s.head? = some 45 then s.tail else s)
  generalize hs₁ : (if s.head? = some 45 then s.tail else s) = s₁ at h₁ h₂ hwhole
  obtain ⟨fraction, h₃, hfraction⟩ := takeFraction (if s₁.head? = some 48 then s₁.tail else s₁.dropWhile isDigit)
  generalize hs₂ : (if s₁.head? = some 48 then s₁.tail else s₁.dropWhile isDigit) = s₂ at h₂ h₃
  obtain ⟨exponent, h₄, hexponent⟩ := takeExponent (if s₂.head? = some 46 then s₂.tail.dropWhile isDigit else s₂)
  generalize hs₃ : (if s₂.head? = some 46 then s₂.tail.dropWhile isDigit else s₂) = s₃ at h₃ h₄
  have hend : numberEnd s = (if s₃.head? = some 101 ∨ s₃.head? = some 69 then
      (if s₃.tail.head? = some 43 ∨ s₃.tail.head? = some 45 then s₃.tail.tail else s₃.tail).dropWhile isDigit
      else s₃) := by
    simp only [numberEnd, hs₁, hs₂, hs₃]
  refine ⟨sign ++ whole ++ fraction ++ exponent, ?_, sign, whole, fraction, exponent, rfl, hsign, ?_,
    hfraction, hexponent⟩
  · rw [hend, List.append_assoc, ← h₄, List.append_assoc, ← h₃, List.append_assoc, ← h₂]
    exact h₁
  · refine hwhole.imp_right fun ⟨hnone, hdigit⟩ => ⟨hnone, ?_⟩
    -- Without a minus the first byte is a digit.
    rcases hsign with rfl | rfl
    · rw [← hs₁, if_neg (hminus rfl)] at hdigit
      cases s with
      | nil => cases h
      | cons c s =>
        have hc := hdigit c rfl
        have hne : c ≠ 45 := fun he => hminus rfl (congrArg some he)
        simp [hc, hne] at h
    · rfl

/-- What can come after a value: the end, a blank, a comma or a closing bracket. -/
def Ends (rest : Text) : Prop := ∀ c ∈ rest.head?, isWhitespace c = true ∨ c = 44 ∨ c = 93 ∨ c = 125

theorem Ends.not_number (h : Ends rest) {c : UInt8} (hc : c ∈ rest.head?) :
    isDigit c = false ∧ c ≠ 46 ∧ c ≠ 101 ∧ c ≠ 69 ∧ c ≠ 43 ∧ c ≠ 45 := by
  rcases h c hc with hblank | rfl | rfl | rfl
  · simp only [isWhitespace, Bool.or_eq_true, decide_eq_true_eq] at hblank
    rcases hblank with ((rfl | rfl) | rfl) | rfl <;> decide
  all_goals decide

theorem dropExponent {exponent : Text} (h : Exponent (fun _ => True) exponent) (hrest : Ends rest) :
    (if (exponent ++ rest).head? = some 101 ∨ (exponent ++ rest).head? = some 69 then
      (if (exponent ++ rest).tail.head? = some 43 ∨
        (exponent ++ rest).tail.head? = some 45 then (exponent ++ rest).tail.tail
        else (exponent ++ rest).tail).dropWhile isDigit else exponent ++ rest) = rest := by
  rcases h with rfl | ⟨mark, sign, ds, rfl, hmark, hsign, hds, -⟩
  · apply if_neg
    rintro (h | h)
    · exact (hrest.not_number h).2.2.1 rfl
    · exact (hrest.not_number h).2.2.2.1 rfl
  · have hafter : (if ((mark :: (sign ++ ds)) ++ rest).tail.head? = some 43 ∨
        ((mark :: (sign ++ ds)) ++ rest).tail.head? = some 45 then
        ((mark :: (sign ++ ds)) ++ rest).tail.tail else ((mark :: (sign ++ ds)) ++ rest).tail) = ds ++ rest := by
      rcases hsign with rfl | rfl | rfl
      · apply if_neg
        -- Neither a digit nor what ends a number is a sign.
        have hno : ∀ c ∈ (ds ++ rest).head?, c ≠ 43 ∧ c ≠ 45 := by
          intro c hc
          cases ds with
          | nil => exact ⟨(hrest.not_number hc).2.2.2.2.1, (hrest.not_number hc).2.2.2.2.2⟩
          | cons d ds =>
            cases hc
            have hdigit := hds c List.mem_cons_self
            constructor <;> (rintro rfl; cases hdigit)
        rintro (h | h)
        · exact (hno _ h).1 rfl
        · exact (hno _ h).2 rfl
      · rfl
      · rfl
    rw [if_pos (by rcases hmark with rfl | rfl <;> simp), hafter]
    exact dropDigits hds fun c hc => (hrest.not_number hc).1

theorem exponent_head {exponent : Text} (h : Exponent (fun _ => True) exponent) (hrest : Ends rest) {c : UInt8}
    (hc : c ∈ (exponent ++ rest).head?) : isDigit c = false ∧ c ≠ 46 := by
  rcases h with rfl | ⟨mark, sign, ds, rfl, hmark, -⟩
  · exact ⟨(hrest.not_number hc).1, (hrest.not_number hc).2.1⟩
  · cases hc
    rcases hmark with rfl | rfl <;> decide

theorem dropFraction {fraction : Text} (h : Fraction (fun _ => True) fraction)
    (hrest : ∀ c ∈ rest.head?, isDigit c = false ∧ c ≠ 46) :
    (if (fraction ++ rest).head? = some 46 then (fraction ++ rest).tail.dropWhile isDigit
      else fraction ++ rest) = rest := by
  rcases h with rfl | ⟨ds, rfl, hds, -⟩
  · exact if_neg fun h => (hrest 46 h).2 rfl
  · exact (if_pos rfl).trans (dropDigits hds fun c hc => (hrest c hc).1)

theorem fraction_head {fraction : Text} (h : Fraction (fun _ => True) fraction)
    (hrest : ∀ c ∈ rest.head?, isDigit c = false)
    {c : UInt8} (hc : c ∈ (fraction ++ rest).head?) : isDigit c = false := by
  rcases h with rfl | ⟨ds, rfl, -⟩
  · exact hrest c hc
  · cases hc
    rfl

theorem dropWhole {whole : Text} (h : WholePart whole ∨ whole = []) (hrest : ∀ c ∈ rest.head?, isDigit c = false) :
    (if (whole ++ rest).head? = some 48 then (whole ++ rest).tail else (whole ++ rest).dropWhile isDigit) = rest := by
  rcases h with (rfl | ⟨c, r, rfl, hc, hzero, hr⟩) | rfl
  · rfl
  · rw [if_neg fun h : (c :: r ++ rest).head? = some 48 => hzero (Option.some.inj h)]
    apply dropDigits _ hrest
    intro b hb
    rcases List.mem_cons.1 hb with rfl | hb
    · exact hc
    · exact hr b hb
  · rw [if_neg]
    · have hnone : Digits [] := fun b hb => absurd hb List.not_mem_nil
      exact dropDigits hnone hrest
    · intro h
      cases hrest 48 h

theorem dropSign {sign : Text} (h : Sign sign) (hrest : sign = [] → rest.head? ≠ some 45) :
    (if (sign ++ rest).head? = some 45 then (sign ++ rest).tail else sign ++ rest) = rest := by
  rcases h with rfl | rfl
  · exact if_neg (hrest rfl)
  · rfl

/-- The scanner stops where such a number ends. -/
theorem numberEnd_complete {t : Text} (h : ScannedNumber t) (hrest : Ends rest) : numberEnd (t ++ rest) = rest := by
  obtain ⟨sign, whole, fraction, exponent, rfl, hsign, hwhole, hfraction, hexponent⟩ := h
  have hhead := fun c hc => exponent_head hexponent hrest (c := c) hc
  have hhead' := fun c hc => fraction_head hfraction (fun c hc => (hhead c hc).1) (c := c) hc
  have hminus : sign = [] → (whole ++ (fraction ++ (exponent ++ rest))).head? ≠ some 45 := by
    rintro rfl h
    rcases hwhole with (rfl | ⟨c, r, rfl, hc, -⟩) | ⟨-, h⟩
    · cases h
    · cases h
      cases hc
    · cases h
  simp only [numberEnd, List.append_assoc, dropSign hsign hminus, dropWhole (hwhole.imp_right And.left) hhead',
    dropFraction hfraction hhead, dropExponent hexponent hrest]

theorem scanned_head {t : Text} (h : ScannedNumber t) (rest : Text) :
    ∃ c r, t ++ rest = c :: r ∧ (c = 45 ∨ isDigit c = true) := by
  obtain ⟨sign, whole, fraction, exponent, rfl, rfl | rfl, (rfl | ⟨c, r, rfl, hc, -⟩) | ⟨-, hminus⟩, -⟩ := h
  · exact ⟨48, _, rfl, .inr rfl⟩
  · exact ⟨c, _, rfl, .inr hc⟩
  · cases hminus
  all_goals exact ⟨45, _, rfl, .inl rfl⟩

theorem parseNumber_sound {v : Value} (h : (s.head?.map fun c => c = 45 || isDigit c) = some true)
    (hparse : parseNumber s = .ok (v, s')) : ∃ t, s = t ++ s' ∧ JsonText ScannedNumber t v := by
  obtain ⟨t, ht, hscanned⟩ := numberEnd_sound h
  obtain ⟨d, hd, hv⟩ := bind_ok hparse
  cases hv
  have htake : s.take (s.length - (numberEnd s).length) = t := by
    generalize numberEnd s = r at ht
    rw [ht, List.length_append, Nat.add_sub_cancel, List.take_left]
  rw [htake] at hd
  exact ⟨t, ht, .number hscanned hd⟩

theorem parseNumber_complete {t : Text} {d : Rat} (h : ScannedNumber t) (hd : stod t = .ok d) (hrest : Ends rest) :
    parseNumber (t ++ rest) = .ok (.number d, rest) := by
  unfold parseNumber
  rw [numberEnd_complete h hrest, List.length_append, Nat.add_sub_cancel, List.take_left, hd]
  rfl

/-! ## Objects -/

section Objects

variable {k key : Text} {u : Value} {o o' : List (Text × Value)}

theorem emplace_sorted (h : o.Pairwise (fun p q => p.1 < q.1)) : (emplace k u o).Pairwise (fun p q => p.1 < q.1) := by
  induction o with
  | nil => exact List.pairwise_singleton _ _
  | cons q o ih =>
    obtain ⟨k', u'⟩ := q
    obtain ⟨hfirst, hrest⟩ := List.pairwise_cons.1 h
    rw [emplace]
    split
    · rename_i hlt
      refine List.pairwise_cons.2 ⟨fun p hp => ?_, h⟩
      rcases List.mem_cons.1 hp with rfl | hp
      · exact hlt
      · exact List.lt_trans hlt (hfirst p hp)
    · rename_i hnot
      split
      · exact h
      · rename_i hne
        have hlt : k' < k := (List.le_iff_lt_or_eq.1 (List.not_lt.1 hnot)).resolve_right (Ne.symm hne)
        refine List.pairwise_cons.2 ⟨fun p hp => ?_, ih hrest⟩
        rcases mem_emplace hp with rfl | hp
        · exact hlt
        · exact hfirst p hp

/-- A key below all others is not there. -/
theorem find_below (h : ∀ p ∈ o, key < p.1) : find key o = none := by
  induction o with
  | nil => rfl
  | cons p o ih =>
    obtain ⟨k, u⟩ := p
    have hlt : key < k := h (k, u) List.mem_cons_self
    have hne : key ≠ k := by
      rintro rfl
      exact List.lt_irrefl key hlt
    rw [find, if_neg hne]
    exact ih fun p hp => h p (List.mem_cons_of_mem _ hp)

/-- A key that is there already keeps its value. -/
theorem find_emplace (h : o.Pairwise (fun p q => p.1 < q.1)) :
    find key (emplace k u o) = (find key o).or (if key = k then some u else none) := by
  induction o with
  | nil => rfl
  | cons q o ih =>
    obtain ⟨k', u'⟩ := q
    obtain ⟨hfirst, hrest⟩ := List.pairwise_cons.1 h
    rw [emplace]
    split
    · rename_i hlt
      rw [find]
      split
      · rename_i he
        have hnone : find key ((k', u') :: o) = none := by
          apply find_below
          rintro p hp
          rw [he]
          rcases List.mem_cons.1 hp with rfl | hp
          · exact hlt
          · exact List.lt_trans hlt (hfirst p hp)
        rw [hnone]
        rfl
      · rw [Option.or_none]
    · split
      · rename_i he
        subst he
        rw [find]
        split
        · rfl
        · rw [Option.or_none]
      · rw [find, find]
        split
        · rfl
        · exact ih hrest

theorem foldl_emplace (ms : List (Text × Value)) (h : o.Pairwise (fun p q => p.1 < q.1)) :
    (ms.foldl (fun o p => emplace p.1 p.2 o) o).Pairwise (fun p q => p.1 < q.1) ∧
      ∀ key, find key (ms.foldl (fun o p => emplace p.1 p.2 o) o) = (find key o).or (find key ms) := by
  induction ms generalizing o with
  | nil => exact ⟨h, fun key => (Option.or_none).symm⟩
  | cons m ms ih =>
    obtain ⟨hsorted, hfind⟩ := ih (emplace_sorted (k := m.1) (u := m.2) h)
    refine ⟨hsorted, fun key => ?_⟩
    rw [List.foldl_cons, hfind, find_emplace h, Option.or_assoc, find]
    split <;> rfl

/-- What the loop of `parseObject` builds. -/
theorem firstOf_foldl (ms : List (Text × Value)) : FirstOf ms (ms.foldl (fun o p => emplace p.1 p.2 o) []) := by
  obtain ⟨hsorted, hfind⟩ := foldl_emplace ms List.Pairwise.nil
  exact ⟨hsorted, hfind⟩

/-- A key that is found in an object in order is not below its first. -/
theorem not_below {p q : Text × Value} (hfirst : ∀ r ∈ o', q.1 < r.1) (hfind : find p.1 (p :: o) = find p.1 (q :: o')) :
    ¬ p.1 < q.1 := by
  intro hlt
  have hnone : find p.1 (q :: o') = none := by
    apply find_below
    intro r hr
    rcases List.mem_cons.1 hr with rfl | hr
    · exact hlt
    · exact List.lt_trans hlt (hfirst r hr)
  rw [hnone, find, if_pos rfl] at hfind
  cases hfind

/-- Objects with the same entries in order are the same. -/
theorem sorted_ext (h : o.Pairwise (fun p q => p.1 < q.1)) (h' : o'.Pairwise (fun p q => p.1 < q.1))
    (hfind : ∀ key, find key o = find key o') : o = o' := by
  induction o generalizing o' with
  | nil =>
    cases o' with
    | nil => rfl
    | cons q o' =>
      have := hfind q.1
      rw [find, find, if_pos rfl] at this
      cases this
  | cons p o ih =>
    obtain ⟨hfirst, hrest⟩ := List.pairwise_cons.1 h
    cases o' with
    | nil =>
      have := hfind p.1
      rw [find, find, if_pos rfl] at this
      cases this
    | cons q o' =>
      obtain ⟨hfirst', hrest'⟩ := List.pairwise_cons.1 h'
      have hle := not_below hfirst' (hfind p.1)
      have hge := not_below hfirst (hfind q.1).symm
      have hkey : p.1 = q.1 := (List.le_iff_lt_or_eq.1 (List.not_lt.1 hge)).resolve_left hle
      have hvalue : p.2 = q.2 := by
        have := hfind p.1
        rw [find, if_pos rfl, hkey, find, if_pos rfl] at this
        exact Option.some.inj this
      have htail : ∀ key, find key o = find key o' := by
        intro key
        by_cases he : key = p.1
        · subst he
          rw [find_below hfirst, hkey, find_below hfirst']
        · have := hfind key
          rwa [find, if_neg he, find, if_neg (hkey ▸ he)] at this
      rw [ih hrest hrest' htail, Prod.ext hkey hvalue]

theorem FirstOf.unique {ms : List (Text × Value)} (h : FirstOf ms o) (h' : FirstOf ms o') : o = o' :=
  sorted_ext h.1 h'.1 fun key => (h.2 key).trans (h'.2 key).symm

end Objects

end Json

end Cget
