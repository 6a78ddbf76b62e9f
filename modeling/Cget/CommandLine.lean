import Cget.Bandwidth
import Cget.OutputPath
/-!
# The command line

`cli_parser.cpp`, and what `main` makes of the options of `add`. `Usage` says which words make up a
command, option by option, without reading from left to right; the parser accepts these and no
others, and refuses everything else as an invalid command.
-/

namespace Cget

open Json

inductive CommandType where
  | add | pause | resume | remove | run | list | stats | status | configGet | configSet | protocols | recover
  | version | help
  deriving DecidableEq, Repr

structure Command where
  type : CommandType := .help
  args : List Text := []
  options : Text → Option Text := fun _ => none

/-- `command.options[key] = value`. -/
def Command.set (c : Command) (key value : Text) : Command :=
  { c with options := Function.update c.options key (some value) }

def cliError (what : Text) : Exn := .cget .invalidCommandError what

/-- `std::from_chars` for an `unsigned`: the number, and what follows its digits. -/
def fromChars (value : Text) : Option (Nat × Text) :=
  let digits := value.takeWhile isDigit
  if digits = [] ∨ 2 ^ 32 ≤ natOf digits then none else some (natOf digits, value.dropWhile isDigit)

def isUnsignedInteger (value : Text) : Bool :=
  match fromChars value with
  | some (parsed, rest) => value ≠ [] ∧ rest = [] ∧ 0 < parsed
  | none => false

/-- The loop of `parseAdd`. -/
def parseAddOptions (command : Command) : List Text → Except Exn Command
  | [] => .ok command
  | token :: rest =>
    if token = text "-o" ∨ token = text "--output" then
      match rest with
      | [] => .error (cliError (token ++ text " requires a path"))
      | value :: rest => parseAddOptions (command.set (text "output") value) rest
    else if token = text "--threads" then
      match rest with
      | [] => .error (cliError (text "--threads requires a positive integer"))
      | value :: rest =>
        if isUnsignedInteger value then parseAddOptions (command.set (text "threads") value) rest
        else .error (cliError (text "--threads requires a positive integer"))
    else if token = text "--sha256" then
      match rest with
      | [] => .error (cliError (text "--sha256 requires a 64-character hex digest"))
      | value :: rest => parseAddOptions (command.set (text "sha256") value) rest
    else if token = text "--limit" then
      match rest with
      | [] => .error (cliError (text "--limit requires a bandwidth value"))
      | value :: rest => parseAddOptions (command.set (text "limit") value) rest
    else if token = text "--force" then parseAddOptions (command.set (text "force") (text "true")) rest
    else if token = text "--queue" then parseAddOptions (command.set (text "queue") (text "true")) rest
    else .error (cliError (text "unknown add option: " ++ token))

/-- `CliParser::parseAdd`, of the words after `add`. -/
def parseAdd : List Text → Except Exn Command
  | [] => .error (cliError (text "add requires a URL"))
  | url :: rest => parseAddOptions { type := .add, args := [url] } rest

/-- `CliParser::parseOneId`, of the words after `name`. -/
def parseOneId (type : CommandType) (name : Text) : List Text → Except Exn Command
  | [id] => .ok { type := type, args := [id] }
  | _ => .error (cliError (name ++ text " requires a task id"))

/-- A command of `parse` that takes nothing. -/
def parsePlain (type : CommandType) (name : Text) : List Text → Except Exn Command
  | [] => .ok { type := type }
  | _ => .error (cliError (name ++ text " does not accept positional arguments"))

/-- `CliParser::parseConfig`, of the words after `config`. -/
def parseConfig : List Text → Except Exn Command
  | [] => .error (cliError (text "config requires get or set"))
  | action :: rest =>
    if action = text "get" then
      match rest with
      | [] => .ok { type := .configGet }
      | [key] => .ok { type := .configGet, args := [key] }
      | _ => .error (cliError (text "config get accepts at most one key"))
    else if action = text "set" then
      match rest with
      | [key, value] => .ok { type := .configSet, args := [key, value] }
      | _ => .error (cliError (text "config set requires a key and value"))
    else .error (cliError (text "unknown config command: " ++ action))

/-- `CliParser::parse`, of the words after the program's name. -/
def parseCommand : List Text → Except Exn Command
  | [] => .ok { type := .help }
  | name :: rest =>
    if name = text "help" ∨ name = text "-h" ∨ name = text "--help" then .ok { type := .help }
    else if name = text "version" ∨ name = text "--version" ∨ name = text "-V" then .ok { type := .version }
    else if name = text "add" then parseAdd rest
    else if name = text "pause" then parseOneId .pause name rest
    else if name = text "resume" then parseOneId .resume name rest
    else if name = text "remove" then parseOneId .remove name rest
    else if name = text "run" then parsePlain .run name rest
    else if name = text "list" then parsePlain .list name rest
    else if name = text "stats" then parsePlain .stats name rest
    else if name = text "status" then parseOneId .status name rest
    else if name = text "recover" then parsePlain .recover name rest
    else if name = text "config" then parseConfig rest
    else if name = text "protocols" then parsePlain .protocols name rest
    else .error (cliError (text "unknown command: " ++ name))

/-! ## The options of `add` in `main` -/

/-- `std::stoul`, with its 64-bit result. -/
def stoul (s : Text) : Except Exn Nat :=
  let signed := s.dropWhile isSpace
  let digits := (if signed.head? = some 43 ∨ signed.head? = some 45 then signed.tail else signed).takeWhile isDigit
  if digits = [] ∨ 2 ^ 64 ≤ natOf digits then .error (.other (text "stoul"))
  else .ok (if signed.head? = some 45 then (2 ^ 64 - natOf digits) % 2 ^ 64 else natOf digits)

/-- `parseThreads` of `main.cpp`. -/
def parseThreads (c : Command) : Except Exn Nat :=
  match c.options (text "threads") with
  | none => .ok 0
  | some value => (stoul value).map (· % 2 ^ 32)

/-- `parseLimit` of `main.cpp`. -/
def parseLimit (c : Command) : Except Exn (Option Nat) :=
  match c.options (text "limit") with
  | none => .ok none
  | some value => (parseBandwidthLimit value).map (·.map (·.toNat))

/-- The request that `main` builds for `add`. -/
def addRequest (c : Command) : Except Exn CreateTaskRequest := do
  let threads ← parseThreads c
  let limit ← parseLimit c
  return {
    url := c.args.headD []
    outputPath := c.options (text "output")
    expectedSha256 := c.options (text "sha256")
    taskRateLimitBytesPerSec := limit
    taskRateLimitOverride := (c.options (text "limit")).isSome
    requestedThreads := threads
    forceOverwrite := (c.options (text "force")).isSome
    queueOnly := (c.options (text "queue")).isSome }

/-! ## Usage -/

/-- A number of threads: decimal digits, not zero, that fit 32 bits. -/
structure IsCount (value : Text) : Prop where
  nonempty : value ≠ []
  digits : ∀ c ∈ value, isDigit c = true
  pos : 0 < natOf value
  fits : natOf value < 2 ^ 32

inductive AddOption where
  | output (long : Bool) (path : Text)
  | threads (count : Text)
  | sha256 (digest : Text)
  | limit (rate : Text)
  | force
  | queue
  deriving DecidableEq, Repr

def AddOption.words : AddOption → List Text
  | .output long path => [if long then text "--output" else text "-o", path]
  | .threads count => [text "--threads", count]
  | .sha256 digest => [text "--sha256", digest]
  | .limit rate => [text "--limit", rate]
  | .force => [text "--force"]
  | .queue => [text "--queue"]

def AddOption.key : AddOption → Text
  | .output _ _ => text "output"
  | .threads _ => text "threads"
  | .sha256 _ => text "sha256"
  | .limit _ => text "limit"
  | .force => text "force"
  | .queue => text "queue"

def AddOption.value : AddOption → Text
  | .output _ path => path
  | .threads count => count
  | .sha256 digest => digest
  | .limit rate => rate
  | .force => text "true"
  | .queue => text "true"

def AddOption.Valid (o : AddOption) : Prop := ∀ count, o = .threads count → IsCount count

/-- The command of `add` with these options; the last one of a kind counts. -/
def withOptions (c : Command) (options : List AddOption) : Command := options.foldl (fun c o => c.set o.key o.value) c

/-- The words that make up a command. -/
inductive Usage : List Text → Command → Prop
  | nothing : Usage [] { type := .help }
  | help (name : Text) (rest : List Text) (h : name ∈ [text "help", text "-h", text "--help"]) :
    Usage (name :: rest) { type := .help }
  | version (name : Text) (rest : List Text) (h : name ∈ [text "version", text "--version", text "-V"]) :
    Usage (name :: rest) { type := .version }
  | add (url : Text) (options : List AddOption) (h : ∀ o ∈ options, o.Valid) :
    Usage (text "add" :: url :: options.flatMap AddOption.words) (withOptions { type := .add, args := [url] } options)
  | oneId (name id : Text) (type : CommandType)
    (h : (name, type) ∈ [(text "pause", .pause), (text "resume", .resume), (text "remove", .remove),
      (text "status", .status)]) :
    Usage [name, id] { type := type, args := [id] }
  | plain (name : Text) (type : CommandType)
    (h : (name, type) ∈ [(text "run", .run), (text "list", .list), (text "stats", .stats), (text "recover", .recover),
      (text "protocols", .protocols)]) :
    Usage [name] { type := type }
  | configGet : Usage [text "config", text "get"] { type := .configGet }
  | configGetKey (key : Text) : Usage [text "config", text "get", key] { type := .configGet, args := [key] }
  | configSet (key value : Text) :
      Usage [text "config", text "set", key, value] { type := .configSet, args := [key, value] }

variable {c : Command} {tokens : List Text} {value : Text} {e : Exn}

/-! ## Numbers of threads -/

theorem takeWhile_dropWhile_nil {p : UInt8 → Bool} {s : Text} (h : s.dropWhile p = []) : s.takeWhile p = s := by
  have := List.takeWhile_append_dropWhile (p := p) (l := s)
  rwa [h, List.append_nil] at this

theorem isUnsignedInteger_iff : isUnsignedInteger value = true ↔ IsCount value := by
  unfold isUnsignedInteger fromChars
  constructor
  · intro h
    split at h
    · rename_i parsed rest hread
      simp only [Option.ite_none_left_eq_some, not_or, Nat.not_le, Option.some.injEq, Prod.mk.injEq] at hread
      obtain ⟨⟨-, hfits⟩, rfl, rfl⟩ := hread
      simp only [decide_eq_true_eq] at h
      obtain ⟨hne, hrest, hpos⟩ := h
      have hall := takeWhile_dropWhile_nil hrest
      rw [hall] at hpos hfits
      exact ⟨hne, fun c hc => List.mem_takeWhile_imp (hall ▸ hc), hpos, hfits⟩
    · cases h
  · rintro ⟨hne, hdigits, hpos, hfits⟩
    have hall : value.takeWhile isDigit = value := List.takeWhile_eq_self_iff.2 hdigits
    have hrest : value.dropWhile isDigit = [] := by simpa using hdigits
    simp only [hall, hrest, hne, false_or, if_neg (Nat.not_le.2 hfits)]
    simp [hpos, hne]

/-! ## The parser accepts the usage -/

theorem parseAddOptions_words (o : AddOption) (h : o.Valid) (c : Command) (rest : List Text) :
    parseAddOptions c (o.words ++ rest) = parseAddOptions (c.set o.key o.value) rest := by
  cases o with
  | output long path => cases long <;> rfl
  | threads count =>
    have hcount : isUnsignedInteger count = true := isUnsignedInteger_iff.2 (h count rfl)
    have hwords : parseAddOptions c ((AddOption.threads count).words ++ rest) =
        if isUnsignedInteger count then parseAddOptions (c.set (text "threads") count) rest
        else .error (cliError (text "--threads requires a positive integer")) := rfl
    rw [hwords, if_pos hcount]
    rfl
  | sha256 digest => rfl
  | limit rate => rfl
  | force => cases rest <;> rfl
  | queue => cases rest <;> rfl

theorem parseAddOptions_usage : ∀ (options : List AddOption) (c : Command), (∀ o ∈ options, o.Valid) →
    parseAddOptions c (options.flatMap AddOption.words) = .ok (withOptions c options)
  | [], _, _ => rfl
  | o :: options, c, h => by
    rw [List.flatMap_cons, parseAddOptions_words o (h o List.mem_cons_self),
      parseAddOptions_usage options _ fun o ho => h o (List.mem_cons_of_mem _ ho)]
    rfl

theorem Usage.parsed (h : Usage tokens c) : parseCommand tokens = .ok c := by
  cases h with
  | nothing => rfl
  | help name rest h =>
    simp only [List.mem_cons, List.not_mem_nil, or_false] at h
    rcases h with rfl | rfl | rfl <;> rfl
  | version name rest h =>
    simp only [List.mem_cons, List.not_mem_nil, or_false] at h
    rcases h with rfl | rfl | rfl <;> rfl
  | add url options h => exact parseAddOptions_usage options _ h
  | oneId name id type h =>
    simp only [List.mem_cons, Prod.mk.injEq, List.not_mem_nil, or_false] at h
    rcases h with ⟨rfl, rfl⟩ | ⟨rfl, rfl⟩ | ⟨rfl, rfl⟩ | ⟨rfl, rfl⟩ <;> rfl
  | plain name type h =>
    simp only [List.mem_cons, Prod.mk.injEq, List.not_mem_nil, or_false] at h
    rcases h with ⟨rfl, rfl⟩ | ⟨rfl, rfl⟩ | ⟨rfl, rfl⟩ | ⟨rfl, rfl⟩ | ⟨rfl, rfl⟩ <;> rfl
  | configGet => rfl
  | configGetKey key => rfl
  | configSet key value => rfl

/-! ## The parser accepts nothing else -/

/-- What is accepted starts with an option, or there is nothing left. -/
theorem parseAddOptions_cases (command : Command) (rest : List Text) (h : parseAddOptions command rest = .ok c) :
    ∃ options, (∀ o ∈ options, AddOption.Valid o) ∧ rest = options.flatMap AddOption.words ∧
      c = withOptions command options := by
  have hcons : ∀ (o : AddOption) (command : Command) (rest : List Text), o.Valid →
      (∃ options, (∀ o ∈ options, AddOption.Valid o) ∧ rest = options.flatMap AddOption.words ∧
        c = withOptions (command.set o.key o.value) options) →
      ∃ options, (∀ o ∈ options, AddOption.Valid o) ∧ o.words ++ rest = options.flatMap AddOption.words ∧
        c = withOptions command options := by
    rintro o command _ hvalid ⟨options, hall, rfl, rfl⟩
    exact ⟨o :: options, List.forall_mem_cons.2 ⟨hvalid, hall⟩, rfl, rfl⟩
  -- Only the number of threads is checked here.
  have hfree : ∀ o : AddOption, (∀ count, o ≠ .threads count) → o.Valid := fun o hne count ho => absurd ho (hne count)
  fun_induction parseAddOptions command rest with
  | case1 command =>
    cases h
    exact ⟨[], by simp, rfl, rfl⟩
  | case3 command flag hflag path rest ih =>
    rcases hflag with rfl | rfl
    · exact hcons (.output false path) command rest (hfree _ (by simp)) (ih h)
    · exact hcons (.output true path) command rest (hfree _ (by simp)) (ih h)
  | case5 command count rest hcount _ ih =>
    refine hcons (.threads count) command rest (fun count' heq => ?_) (ih h)
    cases heq
    exact isUnsignedInteger_iff.1 hcount
  | case8 command digest rest _ _ ih => exact hcons (.sha256 digest) command rest (hfree _ (by simp)) (ih h)
  | case10 command rate rest _ _ _ ih => exact hcons (.limit rate) command rest (hfree _ (by simp)) (ih h)
  | case11 command rest _ _ _ _ ih => exact hcons .force command rest (hfree _ (by simp)) (ih h)
  | case12 command rest _ _ _ _ _ ih => exact hcons .queue command rest (hfree _ (by simp)) (ih h)
  | case2 | case4 | case6 | case7 | case9 | case13 => cases h

theorem parseOneId_cases {type : CommandType} {name : Text} {rest : List Text} (h : parseOneId type name rest = .ok c) :
    ∃ id, rest = [id] ∧ c = { type := type, args := [id] } := by
  unfold parseOneId at h
  split at h
  · rename_i id
    cases h
    exact ⟨id, rfl, rfl⟩
  · cases h

theorem parsePlain_cases {type : CommandType} {name : Text} {rest : List Text} (h : parsePlain type name rest = .ok c) :
    rest = [] ∧ c = { type := type } := by
  unfold parsePlain at h
  split at h
  · cases h
    exact ⟨rfl, rfl⟩
  · cases h

theorem parseConfig_usage {rest : List Text} (h : parseConfig rest = .ok c) : Usage (text "config" :: rest) c := by
  unfold parseConfig at h
  split at h
  · cases h
  · split at h
    · rename_i hget
      subst hget
      split at h
      · cases h
        exact .configGet
      · cases h
        exact .configGetKey _
      · cases h
    · split at h
      · rename_i hset
        subst hset
        split at h
        · cases h
          exact .configSet _ _
        · cases h
      · cases h

theorem usage_of_parsed (h : parseCommand tokens = .ok c) : Usage tokens c := by
  have honeId : ∀ (name : Text) (type : CommandType) (rest : List Text),
      (name, type) ∈ [(text "pause", CommandType.pause), (text "resume", .resume), (text "remove", .remove),
        (text "status", .status)] → parseOneId type name rest = .ok c → Usage (name :: rest) c := by
    intro name type rest hname hparse
    obtain ⟨id, rfl, rfl⟩ := parseOneId_cases hparse
    exact .oneId name id type hname
  have hplain : ∀ (name : Text) (type : CommandType) (rest : List Text),
      (name, type) ∈ [(text "run", CommandType.run), (text "list", .list), (text "stats", .stats),
        (text "recover", .recover),
        (text "protocols", .protocols)] → parsePlain type name rest = .ok c → Usage (name :: rest) c := by
    intro name type rest hname hparse
    obtain ⟨rfl, rfl⟩ := parsePlain_cases hparse
    exact .plain name type hname
  cases tokens with
  | nil =>
    cases h
    exact .nothing
  | cons name rest =>
    rw [parseCommand] at h
    rcases ite_eq_iff.1 h with ⟨hhelp, h⟩ | ⟨-, h⟩
    · cases h
      exact .help name rest (by simpa using hhelp)
    rcases ite_eq_iff.1 h with ⟨hversion, h⟩ | ⟨-, h⟩
    · cases h
      exact .version name rest (by simpa using hversion)
    rcases ite_eq_iff.1 h with ⟨rfl, h⟩ | ⟨-, h⟩
    · cases rest with
      | nil => cases h
      | cons url rest =>
        obtain ⟨options, hall, rfl, rfl⟩ := parseAddOptions_cases _ rest h
        exact .add url options hall
    rcases ite_eq_iff.1 h with ⟨hname, h⟩ | ⟨-, h⟩
    · exact honeId name .pause rest (by simp [hname]) h
    rcases ite_eq_iff.1 h with ⟨hname, h⟩ | ⟨-, h⟩
    · exact honeId name .resume rest (by simp [hname]) h
    rcases ite_eq_iff.1 h with ⟨hname, h⟩ | ⟨-, h⟩
    · exact honeId name .remove rest (by simp [hname]) h
    rcases ite_eq_iff.1 h with ⟨hname, h⟩ | ⟨-, h⟩
    · exact hplain name .run rest (by simp [hname]) h
    rcases ite_eq_iff.1 h with ⟨hname, h⟩ | ⟨-, h⟩
    · exact hplain name .list rest (by simp [hname]) h
    rcases ite_eq_iff.1 h with ⟨hname, h⟩ | ⟨-, h⟩
    · exact hplain name .stats rest (by simp [hname]) h
    rcases ite_eq_iff.1 h with ⟨hname, h⟩ | ⟨-, h⟩
    · exact honeId name .status rest (by simp [hname]) h
    rcases ite_eq_iff.1 h with ⟨hname, h⟩ | ⟨-, h⟩
    · exact hplain name .recover rest (by simp [hname]) h
    rcases ite_eq_iff.1 h with ⟨rfl, h⟩ | ⟨-, h⟩
    · exact parseConfig_usage h
    rcases ite_eq_iff.1 h with ⟨hname, h⟩ | ⟨-, h⟩
    · exact hplain name .protocols rest (by simp [hname]) h
    · cases h

/-! ## What is refused -/

/-- An error that is the command's, whatever its text. -/
def IsInvalidCommand (e : Exn) : Prop := ∃ what, e = cliError what

theorem parseAddOptions_error (command : Command) (rest : List Text) (h : parseAddOptions command rest = .error e) :
    IsInvalidCommand e := by
  fun_induction parseAddOptions command rest with
  | case1 => cases h
  | case3 _ _ _ _ _ ih | case5 _ _ _ _ _ ih | case8 _ _ _ _ _ ih => exact ih h
  | case10 _ _ _ _ _ _ ih => exact ih h
  | case11 _ _ _ _ _ _ ih => exact ih h
  | case12 _ _ _ _ _ _ _ ih => exact ih h
  | case2 | case4 | case6 | case7 | case9 | case13 =>
    cases h
    exact ⟨_, rfl⟩

theorem parsed_error (h : parseCommand tokens = .error e) : IsInvalidCommand e := by
  have honeId : ∀ {type : CommandType} {name : Text} {rest : List Text}, parseOneId type name rest = .error e →
      IsInvalidCommand e := by
    intro type name rest h
    unfold parseOneId at h
    split at h
    · cases h
    · cases h
      exact ⟨_, rfl⟩
  have hplain : ∀ {type : CommandType} {name : Text} {rest : List Text}, parsePlain type name rest = .error e →
      IsInvalidCommand e := by
    intro type name rest h
    unfold parsePlain at h
    split at h
    · cases h
    · cases h
      exact ⟨_, rfl⟩
  have hconfig : ∀ {rest : List Text}, parseConfig rest = .error e → IsInvalidCommand e := by
    intro rest h
    unfold parseConfig at h
    repeat' split at h
    all_goals cases h
    all_goals exact ⟨_, rfl⟩
  have hadd : ∀ {rest : List Text}, parseAdd rest = .error e → IsInvalidCommand e := by
    intro rest h
    cases rest with
    | nil =>
      cases h
      exact ⟨_, rfl⟩
    | cons url rest => exact parseAddOptions_error _ rest h
  cases tokens with
  | nil => cases h
  | cons name rest =>
    rw [parseCommand] at h
    rcases ite_eq_iff.1 h with ⟨-, h⟩ | ⟨-, h⟩
    · cases h
    rcases ite_eq_iff.1 h with ⟨-, h⟩ | ⟨-, h⟩
    · cases h
    rcases ite_eq_iff.1 h with ⟨-, h⟩ | ⟨-, h⟩
    · exact hadd h
    iterate 9
      rcases ite_eq_iff.1 h with ⟨-, h⟩ | ⟨-, h⟩
      · first | exact honeId h | exact hplain h | exact hconfig h
    rcases ite_eq_iff.1 h with ⟨-, h⟩ | ⟨-, h⟩
    · exact hplain h
    · cases h
      exact ⟨_, rfl⟩

/-- The parser takes exactly the command lines of the usage, for what they say; any other one is an
invalid command. -/
theorem parse_usage (tokens : List Text) :
    (∀ c, parseCommand tokens = .ok c ↔ Usage tokens c) ∧
      ((¬∃ c, Usage tokens c) → ∃ what, parseCommand tokens = .error (cliError what)) := by
  refine ⟨fun c => ⟨usage_of_parsed, Usage.parsed⟩, fun hnone => ?_⟩
  cases hparse : parseCommand tokens with
  | ok c => exact absurd ⟨c, usage_of_parsed hparse⟩ hnone
  | error e =>
    obtain ⟨what, rfl⟩ := parsed_error hparse
    exact ⟨what, rfl⟩

/-! ## The request of `add` -/

/-- What the last option with this key says. -/
def lastValue (options : List AddOption) (key : Text) : Option Text :=
  ((options.filter (·.key = key)).getLast?).map (·.value)

theorem withOptions_options (key : Text) : ∀ (options : List AddOption) (c : Command),
    (withOptions c options).options key = (lastValue options key).or (c.options key)
  | [], _ => rfl
  | o :: options, c => by
    have hrest := withOptions_options key options (c.set o.key o.value)
    rw [withOptions, List.foldl_cons, ← withOptions, hrest]
    by_cases hkey : o.key = key
    · subst hkey
      cases hlast : (options.filter (·.key = o.key)).getLast? with
      | none =>
        have hnil : options.filter (·.key = o.key) = [] := by simpa using hlast
        simp [lastValue, hnil, Command.set]
      | some p => simp [lastValue, hlast, List.getLast?_cons]
    · have hset : (c.set o.key o.value).options key = c.options key := Function.update_of_ne (Ne.symm hkey) _ _
      simp [lastValue, hkey, hset]

theorem withOptions_args : ∀ (options : List AddOption) (c : Command), (withOptions c options).args = c.args
  | [], _ => rfl
  | o :: options, c => withOptions_args options (c.set o.key o.value)

theorem IsCount.stoul (h : IsCount value) : stoul value = .ok (natOf value) := by
  obtain ⟨c, rest, rfl⟩ := List.exists_cons_of_ne_nil h.nonempty
  have hc := h.digits c List.mem_cons_self
  have hspace : (c :: rest).dropWhile isSpace = c :: rest := by simp [isSpace_digit hc]
  have hsign : c ≠ 43 ∧ c ≠ 45 := by
    constructor <;> rintro rfl <;> exact absurd hc (by decide)
  have hall : (c :: rest).takeWhile isDigit = c :: rest := List.takeWhile_eq_self_iff.2 h.digits
  have hfits := h.fits
  simp only [Cget.stoul, hspace, List.head?_cons, Option.some.injEq, hsign.1, hsign.2, or_self, if_false, hall]
  rw [if_neg (by simp; omega)]

theorem lastValue_mem {options : List AddOption} {key : Text} (h : lastValue options key = some value) :
    ∃ o ∈ options, o.key = key ∧ o.value = value := by
  obtain ⟨o, hlast, rfl⟩ := Option.map_eq_some_iff.1 h
  have hmem := List.mem_of_getLast? hlast
  simp only [List.mem_filter, decide_eq_true_eq] at hmem
  exact ⟨o, hmem.1, hmem.2, rfl⟩

theorem lastCount {options : List AddOption} (hall : ∀ o ∈ options, o.Valid)
    (h : lastValue options (text "threads") = some value) : IsCount value := by
  obtain ⟨o, ho, hkey, rfl⟩ := lastValue_mem h
  cases o with
  | threads count => exact hall _ ho count rfl
  | output | sha256 | limit | force | queue => exact absurd hkey (by simp only [AddOption.key]; decide)

/-- The request that the options ask for, once its limit is read. -/
def requestOf (url : Text) (options : List AddOption) (limit : Option Nat) : CreateTaskRequest where
  url := url
  outputPath := lastValue options (text "output")
  expectedSha256 := lastValue options (text "sha256")
  taskRateLimitBytesPerSec := limit
  taskRateLimitOverride := (lastValue options (text "limit")).isSome
  requestedThreads := ((lastValue options (text "threads")).map natOf).getD 0
  forceOverwrite := (lastValue options (text "force")).isSome
  queueOnly := (lastValue options (text "queue")).isSome

/-- Of an accepted line only the limit can be refused; the number of threads arrives as it is written. -/
theorem addRequest_options {url : Text} {options : List AddOption} (hall : ∀ o ∈ options, o.Valid) :
    addRequest (withOptions { type := .add, args := [url] } options) =
      (parseLimit (withOptions { type := .add, args := [url] } options)).map (requestOf url options) := by
  have hoptions : ∀ key, (withOptions { type := .add, args := [url] } options).options key = lastValue options key := by
    intro key
    rw [withOptions_options, Option.or_none]
  have hthreads : parseThreads (withOptions { type := .add, args := [url] } options) =
      .ok (((lastValue options (text "threads")).map natOf).getD 0) := by
    unfold parseThreads
    rw [hoptions]
    cases hcount : lastValue options (text "threads") with
    | none => rfl
    | some value =>
      have h := lastCount hall hcount
      simp only [h.stoul, Except.map, Option.map_some, Option.getD_some]
      rw [Nat.mod_eq_of_lt h.fits]
  unfold addRequest
  rw [hthreads]
  cases parseLimit (withOptions { type := .add, args := [url] } options) with
  | error e => rfl
  | ok limit =>
    simp only [hoptions, withOptions_args]
    rfl

/-! ## Requests on the command line -/

/-- The options that ask for a request. -/
def CreateTaskRequest.asked (q : CreateTaskRequest) : List AddOption :=
  (q.outputPath.map (.output true)).toList ++
    ((if q.requestedThreads = 0 then [] else [.threads (decimal q.requestedThreads)]) ++
    ((q.expectedSha256.map .sha256).toList ++
    ((if q.taskRateLimitOverride then [.limit (decimal (q.taskRateLimitBytesPerSec.getD 0))] else []) ++
    ((if q.forceOverwrite then [.force] else []) ++ if q.queueOnly then [.queue] else []))))

/-- A request that `add` can make: its name is that of the URL, and its numbers fit; a rate is only
kept as far as a double keeps it. -/
structure Askable (q : CreateTaskRequest) : Prop where
  name : q.fileName = none
  threads : q.requestedThreads < 2 ^ 32
  unset : q.taskRateLimitOverride = false → q.taskRateLimitBytesPerSec = none
  rate : ∀ n ∈ q.taskRateLimitBytesPerSec, 0 < n ∧ n < 2 ^ 64 ∧ Binary64.Whole n

theorem lastValue_append (options more : List AddOption) (key : Text) :
    lastValue (options ++ more) key = (lastValue more key).or (lastValue options key) := by
  simp only [lastValue, List.filter_append, List.getLast?_append]
  cases (more.filter (·.key = key)).getLast? <;> rfl

/-- Options of another kind do not count. -/
theorem lastValue_apart {options : List AddOption} {key other : Text} (h : ∀ o ∈ options, o.key = other)
    (hne : other ≠ key) :
    lastValue options key = none := by
  have hnil : options.filter (·.key = key) = [] := by
    rw [List.filter_eq_nil_iff]
    intro o ho
    simpa [h o ho] using hne
  simp [lastValue, hnil]

theorem isCount_decimal {n : Nat} (hpos : 0 < n) (hn : n < 2 ^ 32) : IsCount (decimal n) := by
  refine ⟨?_, isDigit_decimal n, by rwa [natOf_decimal], by rwa [natOf_decimal]⟩
  obtain ⟨c, rest, hc, -⟩ := decimal_head n
  simp [hc]

variable {q : CreateTaskRequest}

theorem asked_valid (h : Askable q) : ∀ o ∈ q.asked, o.Valid := by
  intro o ho count hcount
  subst hcount
  have hthreads : q.requestedThreads ≠ 0 ∧ count = decimal q.requestedThreads := by
    simp only [CreateTaskRequest.asked, List.mem_append, Option.mem_toList] at ho
    rcases ho with ho | ho | ho | ho | ho | ho
    · simp at ho
    · split at ho <;> simp_all
    · simp at ho
    · split at ho <;> simp_all
    · split at ho <;> simp_all
    · split at ho <;> simp_all
  rw [hthreads.2]
  exact isCount_decimal (Nat.pos_of_ne_zero hthreads.1) h.threads

/-- Each kind of option is asked for at most once, so its value is the last one. -/
structure AskedFor (q : CreateTaskRequest) : Prop where
  output : lastValue q.asked (text "output") = q.outputPath
  threads : lastValue q.asked (text "threads") = if q.requestedThreads = 0 then none else some
    (decimal q.requestedThreads)
  sha256 : lastValue q.asked (text "sha256") = q.expectedSha256
  limit : lastValue q.asked (text "limit") =
    if q.taskRateLimitOverride then some (decimal (q.taskRateLimitBytesPerSec.getD 0)) else none
  force : (lastValue q.asked (text "force")).isSome = q.forceOverwrite
  queue : (lastValue q.asked (text "queue")).isSome = q.queueOnly

theorem askedFor (q : CreateTaskRequest) : AskedFor q := by
  have houtput : ∀ o ∈ (q.outputPath.map (AddOption.output true)).toList, o.key = text "output" := by
    cases q.outputPath <;> simp [AddOption.key]
  have hthreads : ∀ o ∈ (if q.requestedThreads = 0 then [] else [AddOption.threads (decimal q.requestedThreads)]),
      o.key = text "threads" := by split <;> simp [AddOption.key]
  have hsha256 : ∀ o ∈ (q.expectedSha256.map AddOption.sha256).toList, o.key = text "sha256" := by
    cases q.expectedSha256 <;> simp [AddOption.key]
  have hlimit : ∀ o ∈ (if q.taskRateLimitOverride then [AddOption.limit (decimal (q.taskRateLimitBytesPerSec.getD 0))]
      else []), o.key = text "limit" := by split <;> simp [AddOption.key]
  have hforce : ∀ o ∈ (if q.forceOverwrite then [AddOption.force] else []), o.key = text "force" := by
    split <;> simp [AddOption.key]
  have hqueue : ∀ o ∈ (if q.queueOnly then [AddOption.queue] else []), o.key = text "queue" := by
    split <;> simp [AddOption.key]
  constructor
  · simp only [CreateTaskRequest.asked, lastValue_append]
    rw [lastValue_apart hthreads (by decide), lastValue_apart hsha256 (by decide), lastValue_apart hlimit (by decide),
      lastValue_apart hforce (by decide), lastValue_apart hqueue (by decide)]
    cases q.outputPath <;> rfl
  · simp only [CreateTaskRequest.asked, lastValue_append]
    rw [lastValue_apart houtput (by decide), lastValue_apart hsha256 (by decide), lastValue_apart hlimit (by decide),
      lastValue_apart hforce (by decide), lastValue_apart hqueue (by decide)]
    split <;> rfl
  · simp only [CreateTaskRequest.asked, lastValue_append]
    rw [lastValue_apart houtput (by decide), lastValue_apart hthreads (by decide), lastValue_apart hlimit (by decide),
      lastValue_apart hforce (by decide), lastValue_apart hqueue (by decide)]
    cases q.expectedSha256 <;> rfl
  · simp only [CreateTaskRequest.asked, lastValue_append]
    rw [lastValue_apart houtput (by decide), lastValue_apart hthreads (by decide), lastValue_apart hsha256 (by decide),
      lastValue_apart hforce (by decide), lastValue_apart hqueue (by decide)]
    split <;> rfl
  · simp only [CreateTaskRequest.asked, lastValue_append]
    rw [lastValue_apart houtput (by decide), lastValue_apart hthreads (by decide), lastValue_apart hsha256 (by decide),
      lastValue_apart hlimit (by decide), lastValue_apart hqueue (by decide)]
    cases q.forceOverwrite <;> rfl
  · simp only [CreateTaskRequest.asked, lastValue_append]
    rw [lastValue_apart houtput (by decide), lastValue_apart hthreads (by decide), lastValue_apart hsha256 (by decide),
      lastValue_apart hlimit (by decide), lastValue_apart hforce (by decide)]
    cases q.queueOnly <;> rfl

theorem parseLimit_asked (h : Askable q) (c : Command) (hc : c.options (text "limit") =
    if q.taskRateLimitOverride then some (decimal (q.taskRateLimitBytesPerSec.getD 0)) else none) :
    parseLimit c = .ok q.taskRateLimitBytesPerSec := by
  unfold parseLimit
  rw [hc]
  cases hover : q.taskRateLimitOverride with
  | false =>
    rw [h.unset hover]
    rfl
  | true =>
    cases hrate : q.taskRateLimitBytesPerSec with
    | none => rfl
    | some n =>
      obtain ⟨hpos, hfits, hwhole⟩ := h.rate n hrate
      have hn : (UInt64.ofNat n).toNat = n := Nat.mod_eq_of_lt hfits
      have hne : UInt64.ofNat n ≠ 0 := fun h0 => by
        rw [h0] at hn
        exact absurd hn (Nat.ne_of_lt hpos)
      have hparse := parseBandwidthLimit_decimal (UInt64.ofNat n)
      rw [hn, if_neg hne, rounded_whole (by rwa [hn])] at hparse
      simp [hparse, hn, Except.map]

/-- Every request that `add` can make has a command line that makes it. -/
theorem add_round_trip (q : CreateTaskRequest) (h : Askable q) :
    (parseCommand (text "add" :: q.url :: q.asked.flatMap AddOption.words)).bind addRequest = .ok q := by
  have hvalid := asked_valid h
  have hfor := askedFor q
  rw [(Usage.add q.url q.asked hvalid).parsed, Except.bind, addRequest_options hvalid,
    parseLimit_asked h _ (by rw [withOptions_options, Option.or_none, hfor.limit]), Except.map]
  have hthreads : ((lastValue q.asked (text "threads")).map natOf).getD 0 = q.requestedThreads := by
    rw [hfor.threads]
    split
    · rename_i h0
      exact h0.symm
    · exact natOf_decimal _
  have hlimit : (lastValue q.asked (text "limit")).isSome = q.taskRateLimitOverride := by
    rw [hfor.limit]
    cases q.taskRateLimitOverride <;> rfl
  rw [requestOf, hfor.output, hfor.sha256, hthreads, hlimit, hfor.force, hfor.queue, ← h.name]

def queuedRequest : CreateTaskRequest where
  url := text "https://example.com/file.bin"
  outputPath := some (text "--force")
  taskRateLimitBytesPerSec := some 5000000
  taskRateLimitOverride := true
  requestedThreads := 4
  queueOnly := true

theorem queuedRequest_askable : Askable queuedRequest := by
  refine ⟨rfl, by decide, by decide, fun n hn => ?_⟩
  obtain rfl : 5000000 = n := by simpa [queuedRequest] using hn
  exact ⟨by decide, by decide, Binary64.whole_of_le (by decide)⟩

/-- An output file may be called like an option. -/
theorem add_round_trip_queued :
    (parseCommand (text "add" :: queuedRequest.url :: queuedRequest.asked.flatMap AddOption.words)).bind addRequest =
      .ok queuedRequest := add_round_trip queuedRequest queuedRequest_askable

end Cget
