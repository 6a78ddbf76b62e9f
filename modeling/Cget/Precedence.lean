import Cget.DecimalOptions
import Cget.JsonExact
import Cget.Layers
/-!
# Which layer decides

A setting is decided by the first of its layers that says something: the variable, the key in the
group, the flat key, the default. `load` follows that layer, save that numbers are rounded to
doubles and cut to the width of their setting before they are clamped.
-/

namespace Cget

namespace ConfigManager

open Json

/-! ## What a layer says -/

/-- The layer that decides a setting. -/
inductive Layer where
  | environment (value : Text)
  | file (v : Value)
  | default

/-- An entry is passed over if it is `null` and no number or switch, or a level that is none. -/
def Kind.states (v : Value) : Kind → Bool
  | .name => match v with
    | .string level => isValidLogLevelName level
    | _ => false
  | .policy | .limit | .proxy => !v.isNull
  | _ => true

/-- The variable, then the key in the group, then the flat key, then the default. -/
def Setting.layer (environment : Environment) (document : Value) (s : Setting) : Layer :=
  ((((s.variable.bind environment).filter (s.kind.names ·)).map Layer.environment).or
    (((s.nested document).filter (s.kind.states ·)).or
      ((s.flat document).filter (s.kind.states ·)) |>.map Layer.file)).getD
      .default

def SettingValue.number : SettingValue → Option Nat
  | .uint32 n => some n.toNat
  | .uint64 n => some n.toNat
  | _ => none

/-- The natural number a layer gives exactly. -/
def Layer.number (s : Setting) : Layer → Option Nat
  | .environment value => if value ≠ [] ∧ value.all isDigit then some (natOf value) else none
  | .file (.number q) => if q.den = 1 ∧ 0 ≤ q then some q.num.toNat else none
  | .file _ => none
  | .default => (s.get {}).number

/-- What a layer gives for a setting that is no number. -/
def Layer.value (s : Setting) : Layer → Option SettingValue
  | .environment value => match s.kind with
    | .flag => (parseBoolValue value).map .flag
    | .name => some (.name (lower value))
    | .limit => (parseBandwidthLimit value).toOption.map .limit
    | .proxy => some (.proxy (if value = [] ∨ value = text "none" then none else some value))
    | _ => none
  | .file v => match s.kind, v with
    | .flag, .bool b => some (.flag b)
    | .name, .string level => some (.name (lower level))
    | .policy, .string policy => (schedulingPolicyFromString policy).toOption.map .policy
    | .limit, .string limit => (parseBandwidthLimit limit).toOption.map .limit
    | .proxy, .string url => some (.proxy (some url))
    | _, _ => none
  | .default => some (s.get {})

/-- The range of a number. -/
def Kind.range : Kind → Option (Nat × Nat)
  | .narrow lo hi => some (lo.toNat, hi.toNat)
  | .wide => some (0, 2 ^ 64 - 1)
  | _ => none

/-- Converting the double of this entry to 64 bits is defined. -/
def Layer.Converts : Layer → Prop
  | .file (.number q) => asDouble q < 2 ^ 64
  | _ => True

/-- Every setting is what its layer says, numbers clamped to their range. -/
structure LayersFollowed (environment : Environment) (document : Value) (c : Config) : Prop where
  numbers : ∀ (s : Setting) (lo hi : Nat), s.kind.range = some (lo, hi) → (s.layer environment document).Converts ∧
    ∃ n, (s.layer environment document).number s = some n ∧ (s.get c).number = some (max lo (min n hi))
  others : ∀ s : Setting, s.kind.range = none → (s.layer environment document).value s = some (s.get c)

/-- The narrowing on the way does not change where a layer's number is clamped to. -/
def Layer.Survives (k : Kind) : Layer → Prop
  | .environment value => ∃ n, WholeNumber value n ∧ match k with
    | .narrow _ hi => n < 2 ^ 64 ∨ hi.toNat ≤ n % 2 ^ 64
    | _ => True
  | .file v => ∃ n : Nat, v = .number n ∧ match k with
    | .narrow _ hi => throughDouble n < 2 ^ 64 ∧ (n < 2 ^ 32 ∨ hi.toNat ≤ throughDouble n % 2 ^ 32)
    | _ => n < 2 ^ 64 ∧ Binary64.Whole n
  | .default => True

/-! ## What is loaded -/

/-- What a file says, without rounding; no file says nothing. -/
def DocumentOf (file : Option Text) (document : Value) : Prop :=
  match file with
  | some t => ExactText t document
  | none => document = .object []

/-- What is read of a layer. -/
def Layer.read (s : Setting) : Layer → Option SettingValue
  | .environment value => s.kind.parse (s.variable.getD []) value
  | .file v => s.kind.read (v.mapNumbers asDouble)
  | .default => some (s.get {})

section Loading

variable {environment : Environment} {file file' : Option Text} {document v : Value} {c : Config} {s : Setting}
  {x : SettingValue}

theorem entryOf_mapNumbers (f : Rat → Rat) (v : Value) (key : Text) :
    entryOf (v.mapNumbers f) key = (entryOf v key).map (·.mapNumbers f) := by
  cases v with
  | object o => exact find_mapMembers key o
  | _ => rfl

theorem nested_mapNumbers (f : Rat → Rat) (document : Value) (s : Setting) :
    s.nested (document.mapNumbers f) = (s.nested document).map (·.mapNumbers f) := by
  rw [Setting.nested, entryOf_mapNumbers, Setting.nested]
  cases entryOf document s.group with
  | none => rfl
  | some g => exact entryOf_mapNumbers f g s.field

theorem flat_mapNumbers (f : Rat → Rat) (document : Value) (s : Setting) :
    s.flat (document.mapNumbers f) = (s.flat document).map (·.mapNumbers f) := by
  rw [Setting.flat, Setting.flat]
  cases s.flatKey with
  | none => rfl
  | some key => exact entryOf_mapNumbers f document key

theorem isNull_mapNumbers (f : Rat → Rat) (v : Value) : (v.mapNumbers f).isNull = v.isNull := by cases v <;> rfl

/-- An exact entry is read rounded. -/
theorem Took.exact {k : Kind} {entry : Option Value} {before after : SettingValue}
    (h : Took k (entry.map (·.mapNumbers asDouble)) before after) :
    (entry.filter fun v => !(k.nullable && v.isNull)).elim (some before)
      (fun v => k.read (v.mapNumbers asDouble)) = some after := by
  unfold Took at h
  cases entry with
  | none => exact h
  | some v =>
    rw [Option.map_some, Option.filter_some, isNull_mapNumbers] at h
    rw [Option.filter_some]
    by_cases hthere : (!(k.nullable && v.isNull)) = true
    · rw [if_pos hthere] at h ⊢
      exact h
    · rw [if_neg hthere] at h ⊢
      exact h

theorem run_load_none (environment : Environment) : (load environment).run none =
    (Prog.ofExcept (do pure (normalize (← applyEnv environment {})))).run
      (some (stringify (toJson (normalize {})) 2)) := rfl

/-- What `load` returns comes about in three passes, each of which leaves a setting or takes it from its layer. -/
theorem load_took (hdocument : DocumentOf file document) (h : (load environment).run file = (.ok c, file'))
    (s : Setting) :
    ∃ flat nested final,
      ((s.flat document).filter fun v => !(s.kind.nullable && v.isNull)).elim (some (s.get {}))
        (fun v => s.kind.read (v.mapNumbers asDouble)) = some flat ∧
      ((s.nested document).filter fun v => !(s.kind.nullable && v.isNull)).elim (some flat)
        (fun v => s.kind.read (v.mapNumbers asDouble)) = some nested ∧
      TookVariable environment s nested final ∧ s.get c = s.normalized final := by
  cases file with
  | none =>
    cases hdocument
    rw [run_load_none] at h
    obtain ⟨hload, -⟩ := run_ofExcept h
    obtain ⟨layered, hlayered, hc⟩ := bind_ok hload
    cases hc
    have hflat : s.flat (.object []) = none := by
      rw [Setting.flat]
      cases s.flatKey <;> rfl
    refine ⟨s.get {}, s.get {}, _, ?_, rfl, get_applyEnv_took hlayered s, get_normalize layered s⟩
    rw [hflat]
    rfl
  | some t =>
    rw [run_load] at h
    obtain ⟨hload, -⟩ := run_ofExcept h
    obtain ⟨base, layered, hbase, hlayered, rfl⟩ := readConfig_ok hload
    obtain ⟨root, hroot, hbase⟩ := bind_ok hbase
    obtain ⟨legacy, hlegacy, hnested⟩ := bind_ok hbase
    have hread : parse t = .ok (document.mapNumbers asDouble) := parse_exact_iff.2 ⟨document, hdocument, rfl⟩
    rw [hroot] at hread
    cases hread
    have hflat := get_applyLegacyConfig hlegacy s
    have hnested := get_applyNestedConfig hnested s
    rw [flat_mapNumbers] at hflat
    rw [nested_mapNumbers] at hnested
    exact ⟨_, _, _, hflat.exact, hnested.exact, get_applyEnv_took hlayered s, get_normalize layered s⟩

/-- Entries that are read are those that say something, levels apart. -/
theorem states_eq {k : Kind} (hk : k ≠ .name) (v : Value) : k.states v = !(k.nullable && v.isNull) := by
  cases k <;> first | rfl | exact absurd rfl hk

/-- `load` makes of a setting what it reads of its layer. -/
theorem load_reads (hdocument : DocumentOf file document) (h : (load environment).run file = (.ok c, file'))
    (s : Setting) :
    ∃ x, (s.layer environment document).read s = some x ∧ s.get c = s.normalized x := by
  obtain ⟨flat, nested, final, hflat, hnested, hfinal, hget⟩ := load_took hdocument h s
  unfold TookVariable at hfinal
  unfold Setting.layer
  cases hvariable : (s.variable.bind environment).filter (s.kind.names ·) with
  | some value =>
    rw [hvariable] at hfinal
    exact ⟨final, hfinal, hget⟩
  | none =>
    rw [hvariable] at hfinal
    cases hfinal
    rw [Option.map_none, Option.none_or]
    by_cases hname : s.kind = .name
    · -- A level that is none is read and then replaced by the default.
      have hlevel : s = .logLevel := by cases s <;> first | rfl | cases hname
      subst hlevel
      cases hflat
      have hnone : Setting.logLevel.flat document = none := rfl
      rw [hnone]
      cases hentry : Setting.logLevel.nested document with
      | none =>
        rw [hentry] at hnested
        exact ⟨nested, hnested, hget⟩
      | some v =>
        rw [hentry] at hnested
        cases v with
        | string level =>
          cases hnested
          have hstates : Setting.logLevel.kind.states (.string level) = isValidLogLevelName level := rfl
          rw [Option.filter_some, hstates]
          cases hvalid : isValidLogLevelName level with
          | true =>
            exact ⟨.name level, rfl, hget⟩
          | false =>
            refine ⟨.name (text "info"), rfl, hget.trans ?_⟩
            change SettingValue.name (normalLevel level) = .name (normalLevel (text "info"))
            rw [normalLevel, hvalid]
            rfl
        | null => exact ⟨nested, hnested, hget⟩
        | _ => cases hnested
    · have hsame : (fun v => s.kind.states v) = fun v => !(s.kind.nullable && v.isNull) := funext (states_eq hname)
      rw [hsame]
      cases hn : (s.nested document).filter fun v => !(s.kind.nullable && v.isNull) with
      | some v =>
        rw [hn] at hnested
        exact ⟨nested, hnested, hget⟩
      | none =>
        rw [hn] at hnested
        cases hnested
        rw [Option.none_or]
        cases hf : (s.flat document).filter fun v => !(s.kind.nullable && v.isNull) with
        | some v =>
          rw [hf] at hflat
          exact ⟨flat, hflat, hget⟩
        | none =>
          rw [hf] at hflat
          exact ⟨flat, hflat, hget⟩

/-! ## Numbers -/

theorem kind_narrow {lo hi : UInt32} (hk : s.kind = .narrow lo hi) :
    lo.toNat < hi.toNat ∧ (∀ v, s.normalized v = v.clamped lo hi) ∧ ∃ n, s.get {} = .uint32 n := by
  cases s
  all_goals
    cases hk
    try exact ⟨by decide, fun v => rfl, _, rfl⟩

theorem kind_wide (hk : s.kind = .wide) : (∀ v, s.normalized v = v) ∧ ∃ n, s.get {} = .uint64 n := by
  cases s
  all_goals
    cases hk
    try exact ⟨fun v => rfl, _, rfl⟩

/-- A number of the file that is whole, and what it is read as. -/
theorem asUint64_exact (n : Nat) : (Value.mapNumbers asDouble (.number n)).asUint64 = .ok (throughDouble n) ∧
    (asDouble n < 2 ^ 64 ↔ throughDouble n < 2 ^ 64) := by
  have hdouble : asDouble n = Binary64.nearest n := if_neg (not_lt.2 (Nat.cast_nonneg n))
  refine ⟨?_, ?_⟩
  · rw [Value.mapNumbers, hdouble]
    exact asUint64_throughDouble n
  · obtain ⟨m, hm, -⟩ := Binary64.whole_nearest n
    have hfloor : (m : Rat).floor = m := by exact_mod_cast Rat.floor_intCast (m : Int)
    rw [hdouble, throughDouble, hm, hfloor, Int.toNat_natCast]
    exact_mod_cast Iff.rfl

/-- An entry that gives a natural number is that number. -/
theorem number_file {n : Nat} (h : (Layer.file v).number s = some n) : v = .number n := by
  cases v with
  | number q =>
    change (if q.den = 1 ∧ 0 ≤ q then some q.num.toNat else none) = some n at h
    split at h
    · rename_i hq
      cases h
      have hnum : (q.num.toNat : Int) = q.num := Int.toNat_of_nonneg (Rat.num_nonneg.2 hq.2)
      have hcast : ((q.num.toNat : Nat) : Rat) = q.num := by exact_mod_cast congrArg (Int.cast (R := Rat)) hnum
      rw [hcast, Rat.coe_int_num_of_den_eq_one hq.1]
    · cases h
  | _ => cases h

theorem number_natCast (n : Nat) : (Layer.file (.number n)).number s = some n := by
  change (if (n : Rat).den = 1 ∧ (0 : Rat) ≤ n then some (n : Rat).num.toNat else none) = some n
  rw [if_pos ⟨Rat.den_natCast n, Nat.cast_nonneg n⟩, Rat.num_natCast, Int.toNat_natCast]

theorem number_environment {value : Text} {n : Nat} :
    (Layer.environment value).number s = some n ↔ WholeNumber value n := by
  change (if value ≠ [] ∧ value.all isDigit = true then some (natOf value) else none) = some n ↔ _
  constructor
  · intro h
    split at h
    · rename_i hvalue
      exact ⟨hvalue.1, hvalue.2, Option.some.inj h⟩
    · cases h
  · rintro ⟨hne, hdigits, rfl⟩
    exact if_pos ⟨hne, hdigits⟩

theorem toOption_some {α β : Type} {e : Except Exn α} {f : α → β} {b : β} (h : e.toOption.map f = some b) :
    ∃ a, e = .ok a ∧ b = f a := by
  cases e with
  | error e => cases h
  | ok a =>
    cases h
    exact ⟨a, rfl, rfl⟩

/-- A number within bounds is clamped to where its layer's number is, exactly if the narrowing leaves that alone. -/
theorem narrow_follows_iff {l : Layer} {lo hi : UInt32} (hk : s.kind = .narrow lo hi) (hread : l.read s = some x) :
    (l.Converts ∧ ∃ n, l.number s = some n ∧ (s.normalized x).number = some (max lo.toNat (min n hi.toNat))) ↔
      l.Survives s.kind := by
  obtain ⟨hlt, hnormalized, d, hd⟩ := kind_narrow hk
  have hhi := hi.toNat_lt
  have hclamped : ∀ n : UInt32, (s.normalized (.uint32 n)).number = some (max lo.toNat (min n.toNat hi.toNat)) := by
    intro n
    rw [hnormalized]
    exact congrArg some (toNat_clamp lo hi n)
  cases l with
  | default =>
    cases hread
    refine iff_of_true ⟨trivial, d.toNat, ?_, ?_⟩ trivial
    · change (s.get {}).number = _
      rw [hd]
      rfl
    · rw [hd]
      exact hclamped d
  | environment value =>
    rw [Layer.read, hk] at hread
    obtain ⟨y, hy, rfl⟩ := toOption_some hread
    rw [hclamped, hk]
    change (True ∧ _) ↔ ∃ n, WholeNumber value n ∧ (n < 2 ^ 64 ∨ hi.toNat ≤ n % 2 ^ 64)
    rw [true_and]
    refine exists_congr fun n => ?_
    rw [number_environment]
    refine and_congr_right fun hn => ?_
    have hparsed := parsePositiveUint_digits (s.variable.getD []) hn
    rw [hy] at hparsed
    split at hparsed
    · rename_i hrange
      have hvalue : y.toNat = n % 2 ^ 64 := Except.ok.inj hparsed
      rw [hvalue, Option.some.injEq]
      omega
    · cases hparsed
  | file v =>
    rw [Layer.read, hk] at hread
    obtain ⟨m, hm, rfl⟩ := toOption_some hread
    rw [hclamped, hk]
    constructor
    · rintro ⟨hconverts, n, hn, hvalue⟩
      obtain rfl := number_file hn
      obtain ⟨hread, hbelow⟩ := asUint64_exact n
      rw [hread] at hm
      cases hm
      refine ⟨n, rfl, hbelow.1 hconverts, ?_⟩
      rw [UInt32.toNat_ofNat', Option.some.injEq] at hvalue
      omega
    · rintro ⟨n, rfl, hbelow, hnarrow⟩
      obtain ⟨hread, hconverts⟩ := asUint64_exact n
      rw [hread] at hm
      cases hm
      refine ⟨hconverts.2 hbelow, n, number_natCast n, ?_⟩
      rw [UInt32.toNat_ofNat', Option.some.injEq]
      rcases hnarrow with hsmall | hlarge
      · rw [throughDouble_eq (by omega), Nat.mod_eq_of_lt hsmall]
      · by_cases hsmall : n < 2 ^ 32
        · rw [throughDouble_eq (by omega), Nat.mod_eq_of_lt hsmall]
        · omega

/-- No number from `2 ^ 64` on is read as one below. -/
theorem le_throughDouble {n : Nat} (h : 2 ^ 64 ≤ n) : 2 ^ 64 ≤ throughDouble n := by
  have hmono : Binary64.nearest ((2 ^ 64 : Nat) : Rat) ≤ Binary64.nearest n :=
    Binary64.nearest_mono (Nat.cast_nonneg _) (Nat.cast_le.2 h)
  rw [Binary64.nearest_whole ⟨1, 64, by norm_num, by norm_num⟩] at hmono
  have hfloor : ((2 ^ 64 : Nat) : Int) ≤ (Binary64.nearest n).floor := Rat.le_floor_iff.2 (by exact_mod_cast hmono)
  rw [throughDouble]
  omega

/-- A 64-bit number is what its layer's number is exactly if that is a 64-bit number that a double holds. -/
theorem wide_follows_iff {l : Layer} (hk : s.kind = .wide) (hread : l.read s = some x) :
    (l.Converts ∧ ∃ n, l.number s = some n ∧ (s.normalized x).number = some (max 0 (min n (2 ^ 64 - 1)))) ↔
      l.Survives s.kind := by
  obtain ⟨hnormalized, d, hd⟩ := kind_wide hk
  rw [hnormalized]
  cases l with
  | default =>
    cases hread
    have hbelow := d.toNat_lt
    refine iff_of_true ⟨trivial, d.toNat, ?_, ?_⟩ trivial
    · change (s.get {}).number = _
      rw [hd]
      rfl
    · rw [hd]
      refine congrArg some ?_
      omega
  | environment value =>
    rw [Layer.read, hk] at hread
    obtain ⟨y, hy, rfl⟩ := toOption_some hread
    rw [hk]
    change (True ∧ _) ↔ ∃ n, WholeNumber value n ∧ True
    rw [true_and]
    refine exists_congr fun n => ?_
    rw [number_environment]
    refine and_congr_right fun hn => ?_
    have hparsed := parseUint64_digits (s.variable.getD []) hn
    rw [hy] at hparsed
    split at hparsed
    · rename_i hbelow
      cases hparsed
      refine iff_of_true (congrArg some ?_) trivial
      rw [UInt64.toNat_ofNat_of_lt' hbelow]
      omega
    · cases hparsed
  | file v =>
    rw [Layer.read, hk] at hread
    obtain ⟨m, hm, rfl⟩ := toOption_some hread
    rw [hk]
    have hsurvives : (Layer.file v).Survives .wide ↔ ∃ n : Nat, v = .number n ∧ n < 2 ^ 64 ∧ Binary64.Whole n := Iff.rfl
    rw [hsurvives]
    constructor
    · rintro ⟨hconverts, n, hn, hvalue⟩
      obtain rfl := number_file hn
      obtain ⟨hread, hbelow⟩ := asUint64_exact n
      rw [hread] at hm
      cases hm
      have hbelow := hbelow.1 hconverts
      have hsmall : n < 2 ^ 64 := by
        by_contra hlarge
        exact absurd (le_throughDouble (not_lt.1 hlarge)) (not_le.2 hbelow)
      refine ⟨n, rfl, hsmall, throughDouble_iff.1 ?_⟩
      change some (UInt64.ofNat (throughDouble n)).toNat = _ at hvalue
      rw [UInt64.toNat_ofNat_of_lt' hbelow, Option.some.injEq] at hvalue
      omega
    · rintro ⟨n, rfl, hsmall, hwhole⟩
      obtain ⟨hread, hconverts⟩ := asUint64_exact n
      rw [hread] at hm
      cases hm
      have hsame := throughDouble_iff.2 hwhole
      refine ⟨hconverts.2 (hsame.symm ▸ hsmall), n, number_natCast n, ?_⟩
      change some (UInt64.ofNat (throughDouble n)).toNat = _
      rw [hsame, UInt64.toNat_ofNat_of_lt' hsmall, Option.some.injEq]
      omega

/-! ## Everything else -/

/-- The layer of a setting says something of it. -/
theorem layer_usable {l : Layer} (h : s.layer environment document = l) :
    (∀ value, l = .environment value → s.kind.names value = true) ∧ ∀ v, l = .file v → s.kind.states v = true := by
  unfold Setting.layer at h
  cases hvariable : (s.variable.bind environment).filter (s.kind.names ·) with
  | some value =>
    rw [hvariable] at h
    cases h
    refine ⟨?_, fun _ h => (by cases h)⟩
    rintro _ ⟨⟩
    exact (Option.filter_eq_some_iff.1 hvariable).2
  | none =>
    rw [hvariable] at h
    cases hentry : ((s.nested document).filter (s.kind.states ·)).or ((s.flat document).filter (s.kind.states ·)) with
    | none =>
      rw [hentry] at h
      cases h
      exact ⟨fun _ h => (by cases h), fun _ h => (by cases h)⟩
    | some v =>
      rw [hentry] at h
      cases h
      refine ⟨fun _ h => (by cases h), ?_⟩
      rintro _ ⟨⟩
      rcases Option.or_eq_some_iff.1 hentry with h | ⟨-, h⟩
      all_goals exact (Option.filter_eq_some_iff.1 h).2

/-- All but a level and the numbers is loaded as it is read. -/
theorem normalized_other (hrange : s.kind.range = none) (hname : s.kind ≠ .name) (v : SettingValue) :
    s.normalized v = v := by
  cases s
  all_goals first | rfl | exact absurd rfl hname | cases hrange

/-- What is no number is what its layer says. -/
theorem other_follows {l : Layer} (hrange : s.kind.range = none) (hl : s.layer environment document = l)
    (hread : l.read s = some x) :
    l.value s = some (s.normalized x) := by
  obtain ⟨hnames, hstates⟩ := layer_usable hl
  by_cases hname : s.kind = .name
  · have hlevel : s = .logLevel := by cases s <;> first | rfl | cases hname
    subst hlevel
    -- The layer names a level, which stays one in lower case.
    have hvalid : ∀ level, isValidLogLevelName level = true → normalLevel level = lower level := fun _ h => if_pos h
    cases l with
    | default =>
      cases hread
      rfl
    | environment value =>
      cases hread
      have hlower : isValidLogLevelName (lower value) = true := by
        rw [isValidLogLevelName, lower_lower]
        exact hnames value rfl
      exact congrArg (some ∘ SettingValue.name) ((hvalid _ hlower).trans (lower_lower value)).symm
    | file v =>
      have hstated := hstates v rfl
      cases v with
      | string level =>
        cases hread
        exact congrArg (some ∘ SettingValue.name) (hvalid level hstated).symm
      | _ => cases hstated
  · rw [normalized_other hrange hname]
    cases l with
    | default => exact hread
    | environment value =>
      unfold Layer.read Kind.parse at hread
      unfold Layer.value
      cases hk : s.kind <;> rw [hk] at hread hrange <;> first | exact hread | cases hrange
    | file v =>
      unfold Layer.read Kind.read at hread
      unfold Layer.value
      cases hk : s.kind with
      | narrow lo hi => rw [hk] at hrange; cases hrange
      | wide => rw [hk] at hrange; cases hrange
      | name => exact absurd hk hname
      | _ =>
        rw [hk] at hread
        cases v <;> exact hread

end Loading

/-! ## The settings of a load -/

/-- The loaded settings are what the layers say, exactly if every number is one that the
narrowing on its way leaves where it is clamped to. -/
theorem layers_followed_iff (environment : Environment) (file file' : Option Text) (c : Config)
    (hload : (load environment).run file = (.ok c, file')) :
    (∃ document, DocumentOf file document) ∧ ∀ document, DocumentOf file document →
      (LayersFollowed environment document c ↔
        ∀ s : Setting, s.kind.range ≠ none → (s.layer environment document).Survives s.kind) := by
  refine ⟨?_, fun document hdocument => ?_⟩
  · cases file with
    | none => exact ⟨_, rfl⟩
    | some t =>
      rw [run_load] at hload
      obtain ⟨hread, -⟩ := run_ofExcept hload
      obtain ⟨base, -, hbase, -⟩ := readConfig_ok hread
      obtain ⟨root, hroot, -⟩ := bind_ok hbase
      obtain ⟨document, hdocument, -⟩ := parse_exact_iff.1 hroot
      exact ⟨document, hdocument⟩
  have hreads := load_reads hdocument hload
  have hnumber : ∀ (s : Setting) (lo hi : Nat), s.kind.range = some (lo, hi) →
      (((s.layer environment document).Converts ∧ ∃ n, (s.layer environment document).number s = some n ∧
        (s.get c).number = some (max lo (min n hi))) ↔ (s.layer environment document).Survives s.kind) := by
    intro s lo hi hrange
    obtain ⟨x, hx, hget⟩ := hreads s
    rw [hget]
    cases hk : s.kind with
    | narrow lo hi =>
      rw [hk] at hrange
      cases hrange
      exact hk ▸ narrow_follows_iff hk hx
    | wide =>
      rw [hk] at hrange
      cases hrange
      exact hk ▸ wide_follows_iff hk hx
    | _ =>
      rw [hk] at hrange
      cases hrange
  constructor
  · intro hfollowed s hrange
    obtain ⟨⟨lo, hi⟩, hrange⟩ := Option.ne_none_iff_exists'.1 hrange
    exact (hnumber s lo hi hrange).1 (hfollowed.numbers s lo hi hrange)
  · intro hsurvive
    refine ⟨fun s lo hi hrange => (hnumber s lo hi hrange).2 (hsurvive s (by simp [hrange])), fun s hrange => ?_⟩
    obtain ⟨x, hx, hget⟩ := hreads s
    rw [hget]
    exact other_follows hrange rfl hx

/-- A file that limits the threads by its flat key. -/
def threadsFile (n : Nat) : Text := 123 :: (quoted (text "max_threads") ++ 58 :: decimal n) ++ [125]

theorem threadsFile_exact {n : Nat} (hn : n ≤ 2 ^ 64) :
    DocumentOf (some (threadsFile n)) (.object [(text "max_threads", .number n)]) := exact_single (exact_decimal hn)

/-- A group, and beside it the flat key that limits the threads. -/
def layeredMembers : List Member :=
  [⟨quoted (text "download"), text "download",
      123 :: (quoted (text "max_active_tasks") ++ 58 :: decimal 20) ++ [125],
      .object [(text "max_active_tasks", .number (20 : Nat))]⟩,
    ⟨quoted (text "max_threads"), text "max_threads", decimal 99, .number (99 : Nat)⟩]

def layeredFile : Text := 123 :: commas (layeredMembers.map (·.text)) ++ [125]

def layeredDocument : Value :=
  .object [(text "download", .object [(text "max_active_tasks", .number (20 : Nat))]),
    (text "max_threads", .number (99 : Nat))]

theorem layeredFile_exact : DocumentOf (some layeredFile) layeredDocument := by
  have hkeys : ∀ m ∈ layeredMembers, KeyText m.keyText m.key := by
    intro m hm
    rcases List.mem_pair.1 hm with rfl | rfl
    · exact keyText_quoted _
    · exact keyText_quoted _
  have hvalues : ∀ m ∈ layeredMembers, ExactText m.valueText m.value := by
    intro m hm
    rcases List.mem_pair.1 hm with rfl | rfl
    · exact exact_single (exact_decimal (by norm_num))
    · exact exact_decimal (by norm_num)
  exact .object (List.cons_ne_nil _ _) hkeys hvalues ⟨by decide, fun _ => rfl⟩

/-- One variable is set. -/
def retriesVariable : Environment := fun name => if name = text "CGET_MAX_RETRIES" then some (text "12") else none

theorem layers_followed_threads : LayersFollowed retriesVariable layeredDocument
    { download := { maxThreads := 32, maxActiveTasks := 16 }, network := { maxRetries := 10 } } := by
  have hload : (load retriesVariable).run (some layeredFile) =
      (.ok { download := { maxThreads := 32, maxActiveTasks := 16 }, network := { maxRetries := 10 } },
        some layeredFile) := by
    have hread : readConfig retriesVariable layeredFile =
        .ok { download := { maxThreads := 32, maxActiveTasks := 16 }, network := { maxRetries := 10 } } := by
          decide +kernel
    rw [run_load, hread]
    rfl
  refine ((layers_followed_iff retriesVariable (some layeredFile) _ _ hload).2 _ layeredFile_exact).2 ?_
  intro s hrange
  cases s with
  | maxThreads => exact ⟨99, rfl, by rw [throughDouble_eq (by norm_num)]; norm_num, .inl (by norm_num)⟩
  | maxActiveTasks => exact ⟨20, rfl, by rw [throughDouble_eq (by norm_num)]; norm_num, .inl (by norm_num)⟩
  | maxRetries => exact ⟨12, by decide, .inl (by norm_num)⟩
  | _ => trivial

/-- `2 ^ 32` threads are cut to none and then raised to one. -/
theorem wide_number_wraps : ¬ ∀ (environment : Environment) (file file' : Option Text) (document : Value) (c : Config),
    (load environment).run file = (.ok c, file') → DocumentOf file document →
    LayersFollowed environment document c := by
  intro h
  have hload : (load noVariables).run (some (threadsFile (2 ^ 32))) =
      (.ok { download := { maxThreads := 1 } }, some (threadsFile (2 ^ 32))) := by
    have hread : readConfig noVariables (threadsFile (2 ^ 32)) = .ok { download := { maxThreads := 1 } } := by
      decide +kernel
    rw [run_load, hread]
    rfl
  have hfollowed := h _ _ _ _ _ hload (threadsFile_exact (by norm_num))
  obtain ⟨-, n, hn, hvalue⟩ := hfollowed.numbers .maxThreads 1 32 rfl
  cases (number_natCast (2 ^ 32)).symm.trans hn
  exact absurd hvalue (by decide)

end ConfigManager

end Cget
