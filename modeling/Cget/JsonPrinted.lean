import Cget.JsonAcceptance
/-!
# What is printed is a JSON text

Every number is printed as one of the RFC's numbers, and a value as a text that denotes the
value again, up to what reading does to its numbers. Fractions are rounded on the way; whole
numbers among the doubles are not.
-/

namespace Cget

namespace Json

/-! ## Numbers -/

theorem decimal_length (m : Nat) : m < 10 ^ (decimal m).length := by
  have hlen : (decimal m).length = (Nat.toDigits 10 m).length := List.length_map _
  rw [hlen]
  exact (Nat.length_toDigits_le_iff (by norm_num) Nat.length_toDigits_pos).1 le_rfl

theorem le_of_decimal_length {m : Nat} (hm : 0 < m) : 10 ^ ((decimal m).length - 1) ≤ m := by
  have hlen : (decimal m).length = (Nat.toDigits 10 m).length := List.length_map _
  rcases Nat.eq_zero_or_pos ((decimal m).length - 1) with hzero | hpos
  · rw [hzero]
    exact hm
  · rw [hlen] at hpos ⊢
    by_contra hlt
    have := (Nat.length_toDigits_le_iff (b := 10) (by norm_num) hpos).2 (not_le.1 hlt)
    omega

theorem pow10_eq_zpow (e : Int) : pow10 e = 10 ^ e := by
  unfold pow10
  split
  · rename_i h
    obtain ⟨n, rfl⟩ := Int.eq_ofNat_of_zero_le h
    simp
  · rename_i h
    obtain ⟨n, hn⟩ := Int.eq_ofNat_of_zero_le (show 0 ≤ -e by omega)
    rw [hn, Int.toNat_natCast, show e = -(n : Int) by omega, zpow_neg, zpow_natCast, one_div]

/-- The decimal exponent is not too large. -/
theorem pow10_decimalExponent {a : Rat} (ha : 0 < a) : pow10 (decimalExponent a) ≤ a := by
  have hnum : 0 < a.num.natAbs := Int.natAbs_pos.2 (Rat.num_pos.2 ha).ne'
  have hlower : ((10 : Rat) ^ ((decimal a.num.natAbs).length - 1)) ≤ a.num.natAbs := by
    exact_mod_cast le_of_decimal_length hnum
  have hupper : (a.den : Rat) < 10 ^ (decimal a.den).length := by exact_mod_cast decimal_length a.den
  have hden : (0 : Rat) < a.den := by exact_mod_cast a.den_pos
  have hlen : 1 ≤ (decimal a.num.natAbs).length := by
    obtain ⟨c, r, hr, -⟩ := decimal_head a.num.natAbs
    rw [hr, List.length_cons]
    omega
  unfold decimalExponent
  dsimp only
  split
  · -- One less than the difference of the lengths.
    refine le_trans ?_ (Binary64.natAbs_div_den ha).le
    rw [pow10_eq_zpow, le_div_iff₀ hden]
    have hexp : ((decimal a.num.natAbs).length : Int) - (decimal a.den).length - 1 =
        (((decimal a.num.natAbs).length - 1 : Nat) : Int) - ((decimal a.den).length : Int) := by omega
    rw [hexp, zpow_sub₀ (by norm_num), zpow_natCast, zpow_natCast]
    calc (10 : Rat) ^ ((decimal a.num.natAbs).length - 1) / 10 ^ (decimal a.den).length * a.den
        ≤ 10 ^ ((decimal a.num.natAbs).length - 1) / 10 ^ (decimal a.den).length * 10 ^ (decimal a.den).length := by
          gcongr
      _ = 10 ^ ((decimal a.num.natAbs).length - 1) := by field_simp
      _ ≤ a.num.natAbs := hlower
  · rename_i h
    exact not_lt.1 h

theorem wholePart_decimal (m : Nat) : WholePart (decimal m) := by
  obtain ⟨c, r, hr, hc, hzero⟩ := decimal_head m
  have hdigits := isDigit_decimal m
  rw [hr] at hdigits ⊢
  by_cases h : c = 48
  · rw [h, (hzero h).2]
    exact .inl rfl
  · exact .inr ⟨c, r, rfl, hc, h, fun b hb => hdigits b (List.mem_cons_of_mem _ hb)⟩

/-- The first digits of a number that is not 0. -/
theorem wholePart_take {m : Nat} (hm : 0 < m) (k : Nat) : WholePart ((decimal m).take (k + 1)) := by
  obtain ⟨c, r, hr, hc, hzero⟩ := decimal_head m
  have hdigits := isDigit_decimal m
  rw [hr] at hdigits ⊢
  rw [List.take_succ_cons]
  exact .inr ⟨c, _, rfl, hc, fun h => hm.ne' (hzero h).1, fun b hb =>
    hdigits b (List.mem_cons_of_mem _ (List.mem_of_mem_take hb))⟩

theorem fraction_rfc {digits : Text} (h : Digits digits) : Fraction (· ≠ []) (fraction digits) := by
  unfold fraction
  dsimp only
  split
  · exact .inl rfl
  · rename_i hne
    refine .inr ⟨_, rfl, fun b hb => ?_, hne⟩
    exact h b (List.mem_reverse.1 ((List.dropWhile_suffix _).subset (List.mem_reverse.1 hb)))

/-- Numbers with a point or an exponent. -/
theorem formatDouble_rfc {d : Rat} (hd : d ≠ 0) : RfcNumber (formatDouble d) := by
  have habs : 0 < (if d < 0 then -d else d) := by
    split
    · linarith
    · exact lt_of_le_of_ne (not_lt.1 ‹_›) (Ne.symm hd)
  unfold formatDouble
  dsimp only
  generalize (if d < 0 then -d else d) = a at habs
  -- The 17 digits are those of a positive number.
  obtain ⟨m, hm, hdigits⟩ : ∃ m, 0 < m ∧
    (if (Binary64.roundEven (a / pow10 (decimalExponent a - 16))).toNat = 10 ^ 17 then
      decimal (10 ^ 16) else decimal (Binary64.roundEven (a / pow10 (decimalExponent a - 16))).toNat) = decimal m := by
    split
    · exact ⟨10 ^ 16, by norm_num, rfl⟩
    · refine ⟨_, ?_, rfl⟩
      have hone : 1 ≤ a / pow10 (decimalExponent a - 16) := by
        rw [le_div_iff₀ (pow10_pos _), one_mul]
        refine le_trans ?_ (pow10_decimalExponent habs)
        rw [pow10_eq_zpow, pow10_eq_zpow]
        exact zpow_le_zpow_right₀ (by norm_num) (by omega)
      have := Binary64.roundEven_pos hone
      omega
  rw [hdigits]
  generalize (if (Binary64.roundEven (a / pow10 (decimalExponent a - 16))).toNat = 10 ^ 17 then decimalExponent a + 1
    else decimalExponent a) = e
  have hsign : Sign (if d < 0 then [45] else []) := by
    split
    · exact .inr rfl
    · exact .inl rfl
  have hall : Digits (decimal m) := isDigit_decimal m
  have hdrop : ∀ k, Digits ((decimal m).drop k) := fun k b hb => hall b (List.mem_of_mem_drop hb)
  split
  · refine ⟨_, (decimal m).take 1, _, [101, if e < 0 then 45 else 43] ++
      (if e.natAbs < 10 then [48] else []) ++ decimal e.natAbs,
      by simp, hsign, wholePart_take hm 0, fraction_rfc (hdrop 1), .inr ?_⟩
    refine ⟨101, [if e < 0 then 45 else 43], (if e.natAbs < 10 then [48] else []) ++ decimal e.natAbs, by simp,
      .inl rfl, ?_, ?_, ?_⟩
    · split
      · exact .inr (.inr rfl)
      · exact .inr (.inl rfl)
    · intro b hb
      rcases List.mem_append.1 hb with hb | hb
      · split at hb
        · rw [List.mem_singleton.1 hb]
          rfl
        · exact absurd hb List.not_mem_nil
      · exact isDigit_decimal _ b hb
    · obtain ⟨c, r, hr, -⟩ := decimal_head e.natAbs
      simp [hr]
  · split
    · exact ⟨_, _, fraction ((decimal m).drop (e.toNat + 1)), [], by simp, hsign, wholePart_take hm e.toNat,
        fraction_rfc (hdrop _), .inl rfl⟩
    · refine ⟨_, [48], fraction (List.replicate ((-e).toNat - 1) 48 ++ decimal m), [], by simp, hsign, .inl rfl,
        fraction_rfc ?_, .inl rfl⟩
      intro b hb
      rcases List.mem_append.1 hb with hb | hb
      · rw [(List.mem_replicate.1 hb).2]
        rfl
      · exact hall b hb

theorem printNumber_rfc (d : Rat) : RfcNumber (printNumber d) := by
  unfold printNumber
  split
  · exact ⟨[], decimal d.floor.toNat, [], [], by simp, .inl rfl, wholePart_decimal _, .inl rfl, .inl rfl⟩
  · rename_i h
    apply formatDouble_rfc
    rintro rfl
    exact h ⟨congrArg Int.cast (Rat.floor_intCast 0), le_rfl⟩

/-! ## Values -/

mutual

/-- The value with another number for each of its numbers. -/
def Value.mapNumbers (f : Rat → Rat) : Value → Value
  | .null => .null
  | .bool b => .bool b
  | .number d => .number (f d)
  | .string s => .string s
  | .array a => .array (mapItems f a)
  | .object o => .object (mapMembers f o)

def mapItems (f : Rat → Rat) : List Value → List Value
  | [] => []
  | v :: vs => v.mapNumbers f :: mapItems f vs

def mapMembers (f : Rat → Rat) : List (Text × Value) → List (Text × Value)
  | [] => []
  | (key, v) :: ms => (key, v.mapNumbers f) :: mapMembers f ms

end

theorem mapItems_eq (f : Rat → Rat) (vs : List Value) : mapItems f vs = vs.map (·.mapNumbers f) := by
  induction vs with
  | nil => rfl
  | cons v vs ih => rw [mapItems, ih, List.map_cons]

theorem mapMembers_eq (f : Rat → Rat) (ms : List (Text × Value)) :
    mapMembers f ms = ms.map fun p => (p.1, p.2.mapNumbers f) := by
  induction ms with
  | nil => rfl
  | cons m ms ih => rw [mapMembers, ih, List.map_cons]

theorem mapMembers_assign (f : Rat → Rat) (key : Text) (v : Value) (o : List (Text × Value)) :
    mapMembers f (assign key v o) = assign key (v.mapNumbers f) (mapMembers f o) := by
  induction o with
  | nil => rfl
  | cons p o ih =>
    obtain ⟨k, u⟩ := p
    simp only [assign, mapMembers]
    split
    · rfl
    · split
      · rfl
      · rw [mapMembers, ih]

theorem mapNumbers_objectOf (f : Rat → Rat) (entries : List (Text × Value)) :
    (objectOf entries).mapNumbers f = objectOf (entries.map fun p => (p.1, p.2.mapNumbers f)) := by
  have hfold : ∀ (es o : List (Text × Value)), mapMembers f (es.foldl (fun o p => assign p.1 p.2 o) o) =
      (es.map fun p => (p.1, p.2.mapNumbers f)).foldl (fun o p => assign p.1 p.2 o) (mapMembers f o) := by
    intro es
    induction es with
    | nil => exact fun o => rfl
    | cons e es ih =>
      intro o
      rw [List.map_cons, List.foldl_cons, List.foldl_cons, ih, mapMembers_assign]
  rw [objectOf, Value.mapNumbers, hfold]
  rfl

/-- Values that are read back, each number as `f` says. -/
inductive ReadAs (f : Rat → Rat) : Value → Prop
  | null : ReadAs f .null
  | bool (b : Bool) : ReadAs f (.bool b)
  | number (d : Rat) : stod (printNumber d) = .ok (f d) → ReadAs f (.number d)
  | string (s : Text) : ReadAs f (.string s)
  | array (a : List Value) : (∀ v ∈ a, ReadAs f v) → ReadAs f (.array a)
  | object (o : List (Text × Value)) : o.Pairwise (fun p q => p.1 < q.1) → (∀ p ∈ o, ReadAs f p.2) →
      ReadAs f (.object o)

variable {f : Rat → Rat} {v : Value} {indent level : Int}

theorem chars_escapeString (t : Text) : Chars (escapeString t) t := by
  induction t with
  | nil => exact .nil
  | cons c t ih =>
    have hcons : escapeString (c :: t) = escapeByte c ++ escapeString t := List.flatMap_cons
    rw [hcons]
    unfold escapeByte
    split
    case h_8 h34 h92 _ _ _ _ _ => exact .plain h34 h92 ih
    all_goals exact .escape (by decide) ih

theorem blank_appendIndent (count : Int) : Blank (appendIndent count) := by
  intro b hb
  rw [(List.mem_replicate.1 hb).2]
  rfl

theorem blank_newline : Blank [10] := by
  intro b hb
  rw [List.mem_singleton.1 hb]
  rfl

/-- The items of a printed array, with blanks before the first and after the last. -/
theorem stringifyItems_texts {vs : List Value} (hne : vs ≠ [])
    (hvs : ∀ v ∈ vs, ∀ level, JsonText RfcNumber (stringifyInto indent level v) (v.mapNumbers f)) (level : Int)
    {w w' : Text}
    (hw : Blank w) (hw' : Blank w') : ∃ items : List (Text × Value), items ≠ [] ∧
    (∀ p ∈ items, JsonText RfcNumber p.1 p.2) ∧
      items.map (·.2) = mapItems f vs ∧ commas (items.map (·.1)) = w ++ stringifyItems indent level vs ++ w' := by
  induction vs generalizing w with
  | nil => exact absurd rfl hne
  | cons v vs ih =>
    have hv := hvs v List.mem_cons_self level
    by_cases hlast : vs = []
    · subst hlast
      refine ⟨[(w ++ appendIndent level ++ stringifyInto indent level v ++ (10 :: w'), v.mapNumbers f)],
        List.cons_ne_nil _ _, ?_, rfl, by simp [commas, stringifyItems]⟩
      intro p hp
      rw [List.mem_singleton.1 hp]
      exact .blanks (hw.append (blank_appendIndent level)) hv (blank_newline.append hw')
    · obtain ⟨items, hitems, hall, hmap, hcommas⟩ :=
        ih hlast (fun u hu => hvs u (List.mem_cons_of_mem _ hu)) blank_newline
      refine ⟨(w ++ appendIndent level ++ stringifyInto indent level v, v.mapNumbers f) :: items,
        List.cons_ne_nil _ _, ?_, ?_, ?_⟩
      · intro p hp
        rcases List.mem_cons.1 hp with rfl | hp
        · exact hv.after (hw.append (blank_appendIndent level))
        · exact hall p hp
      · rw [List.map_cons, hmap, mapItems]
      · rw [List.map_cons, commas_cons (by simpa using hitems), hcommas, stringifyItems]
        have hmore : vs.isEmpty = false := by simpa using hlast
        simp [hmore]

/-- The entries of a printed object, likewise. -/
theorem stringifyMembers_texts {ms : List (Text × Value)} (hne : ms ≠ [])
    (hms : ∀ p ∈ ms, ∀ level, JsonText RfcNumber (stringifyInto indent level p.2) (p.2.mapNumbers f)) (level : Int)
    {w w' : Text}
    (hw : Blank w) (hw' : Blank w') : ∃ members : List Member, members ≠ [] ∧ (∀ m ∈ members, KeyText m.keyText m.key) ∧
      (∀ m ∈ members, JsonText RfcNumber m.valueText m.value) ∧
      (members.map fun m => (m.key, m.value)) = mapMembers f ms ∧
      commas (members.map (·.text)) = w ++ stringifyMembers indent level ms ++ w' := by
  induction ms generalizing w with
  | nil => exact absurd rfl hne
  | cons p ms ih =>
    obtain ⟨key, v⟩ := p
    have hv := (hms (key, v) List.mem_cons_self level).after (w := [32])
      (by intro b hb; rw [List.mem_singleton.1 hb]; rfl)
    have hkey : KeyText (w ++ appendIndent level ++ quoted key) key := by
      have := KeyText.mk (hw.append (blank_appendIndent level)) (chars_escapeString key) blank_nil
      simpa [quoted] using this
    by_cases hlast : ms = []
    · subst hlast
      refine ⟨[⟨w ++ appendIndent level ++ quoted key, key, [32] ++ stringifyInto indent level v ++ (10 :: w'),
        v.mapNumbers f⟩], List.cons_ne_nil _ _, ?_, ?_, rfl, by simp [commas, stringifyMembers, Member.text]⟩
      · intro m hm
        rw [List.mem_singleton.1 hm]
        exact hkey
      · intro m hm
        rw [List.mem_singleton.1 hm]
        exact hv.before (blank_newline.append hw')
    · obtain ⟨members, hmembers, hkeys, hvalues, hmap, hcommas⟩ :=
        ih hlast (fun q hq => hms q (List.mem_cons_of_mem _ hq)) blank_newline
      refine ⟨⟨w ++ appendIndent level ++ quoted key, key, [32] ++ stringifyInto indent level v,
        v.mapNumbers f⟩ :: members, List.cons_ne_nil _ _, ?_, ?_, ?_, ?_⟩
      · intro m hm
        rcases List.mem_cons.1 hm with rfl | hm
        · exact hkey
        · exact hkeys m hm
      · intro m hm
        rcases List.mem_cons.1 hm with rfl | hm
        · exact hv
        · exact hvalues m hm
      · rw [List.map_cons, hmap, mapMembers]
      · rw [List.map_cons, commas_cons (by simpa using hmembers), hcommas, stringifyMembers]
        have hmore : ms.isEmpty = false := by simpa using hlast
        simp [hmore, Member.text]

theorem mapMembers_sorted {o : List (Text × Value)} (h : o.Pairwise (fun p q => p.1 < q.1)) :
    (mapMembers f o).Pairwise (fun p q => p.1 < q.1) := by
  rw [mapMembers_eq, List.pairwise_map]
  exact h

theorem stringifyInto_text (h : ReadAs f v) (level : Int) :
    JsonText RfcNumber (stringifyInto indent level v) (v.mapNumbers f) := by
  induction h generalizing level with
  | null => exact .null
  | bool b => exact .bool b
  | number d hd => exact .number (printNumber_rfc d) hd
  | string s => exact .string (chars_escapeString s)
  | array a _ ih =>
    rw [Value.mapNumbers]
    cases a with
    | nil => exact .emptyArray blank_nil
    | cons u vs =>
      obtain ⟨items, hne, hall, hmap, hcommas⟩ :=
        stringifyItems_texts (List.cons_ne_nil u vs) (fun v hv level => ih v hv level)
        (level + indent) blank_newline (blank_appendIndent level)
      rw [← hmap]
      have hform : stringifyInto indent level (.array (u :: vs)) = 91 :: commas (items.map (·.1)) ++ [93] := by
        rw [hcommas]
        simp [stringifyInto]
      rw [hform]
      exact .array hne hall
  | object o hsorted _ ih =>
    rw [Value.mapNumbers]
    cases o with
    | nil => exact .emptyObject blank_nil
    | cons m ms =>
      obtain ⟨members, hne, hkeys, hvalues, hmap, hcommas⟩ := stringifyMembers_texts (List.cons_ne_nil m ms)
        (fun p hp level => ih p hp level) (level + indent) blank_newline (blank_appendIndent level)
      have hform : stringifyInto indent level (.object (m :: ms)) = 123 :: commas (members.map (·.text)) ++ [125] := by
        rw [hcommas]
        simp [stringifyInto]
      rw [hform]
      refine .object hne hkeys hvalues ⟨mapMembers_sorted hsorted, fun key => ?_⟩
      rw [hmap]

/-- What is printed for a value is read as the value, each number as `f` says. -/
theorem parse_stringify_as (h : ReadAs f v) (indent : Int) : parse (stringify v indent) = .ok (v.mapNumbers f) :=
  parse_iff.2 (((stringifyInto_text h 0).before blank_newline).mono fun _ => RfcNumber.scanned)

theorem readAs_objectOf {entries : List (Text × Value)} (h : ∀ p ∈ entries, ReadAs f p.2) :
    ReadAs f (objectOf entries) := by
  obtain ⟨hsorted, hall⟩ := foldl_assign h List.Pairwise.nil (fun p hp => absurd hp List.not_mem_nil)
  exact .object _ hsorted hall

end Json

end Cget
