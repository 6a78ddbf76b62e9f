import Cget.Strings
import Cget.World
/-!
# The HTTP protocol handler

`http_protocol_handler.cpp` over libcurl. A transfer is what libcurl hands to the callbacks,
in its order, and what it reports afterwards. Two properties the resume logic rests on are
followed line by line: which bodies reach a part file, and which response the remembered
metadata come from.
-/

namespace Cget

namespace HttpProtocolHandler

/-! ## libcurl -/

/-- The `CURLcode`s the handler tells apart. -/
inductive CurlCode where
  | ok | operationTimedOut | writeError | otherError
  deriving DecidableEq, Repr

/-- One `curl_easy_perform`: the header lines of each response in turn, the body of the last one
as it is split into callbacks, how the transfer ends when no callback stops it, and what
`curl_easy_getinfo` reports. -/
structure Exchange where
  blocks : List (List Text)
  body : List Bytes := []
  result : CurlCode := .ok
  responseCode : Int
  contentLength : Int := -1
  effectiveUrl : Option Text := none
  /-- The error buffer, or else `curl_easy_strerror`. -/
  curlError : CurlCode → Text := fun _ => []

/-- `throwForHttpStatus`. -/
def throwForHttpStatus (statusCode : Int) : Except Exn Unit :=
  if statusCode = 416 then
    .error (.cget .metadataMismatchError (text "server returned HTTP 416 Range Not Satisfiable"))
  else if statusCode = 403 ∨ statusCode = 404 then
    .error (.cget .httpStatusError (text "server returned HTTP " ++ decimalInt statusCode))
  else if 400 ≤ statusCode then .error (.cget .httpStatusError (text "server returned HTTP " ++ decimalInt statusCode))
  else .ok ()

def initError : Exn := .cget .networkError (text "failed to initialize curl")

/-- The exception for a transfer that did not end with `CURLE_OK`. -/
def transferError (x : Exchange) (result : CurlCode) : Exn :=
  .cget (if result = .operationTimedOut then .timeoutError else .networkError) (x.curlError result)

/-- `ProtocolRegistry::schemeOf`. -/
def schemeOf (url : Text) : Text :=
  match (List.range url.length).find? (fun i => (text "://").isPrefixOf (url.drop i)) with
  | some i => lower (url.take i)
  | none => []

def isHttpUrl (url : Text) : Bool := schemeOf url = text "http" || schemeOf url = text "https"

def rangeCanUseSuccessWithoutHttp206 (url : Text) : Bool :=
  schemeOf url = text "ftp" || schemeOf url = text "ftps" || schemeOf url = text "sftp" || schemeOf url = text "scp"

/-! ## The callbacks -/

def isStatusLine (line : Text) : Bool := (text "HTTP/").isPrefixOf line

/-- `input >> httpVersion >> context->statusCode`. Without a second word the status stays. -/
def readStatus (line : Text) (statusCode : Int) : Int :=
  match ((line.dropWhile isSpace).dropWhile (fun c => !isSpace c)).dropWhile isSpace with
  | [] => statusCode
  | c :: s => readLong (c :: s)

structure HeaderContext where
  acceptRanges : Bool := false
  etag : Option Text := none
  lastModified : Option Text := none
  statusCode : Int := 0
  deriving DecidableEq, Repr

def headerCallback (context : HeaderContext) (buffer : Text) : HeaderContext :=
  let line := trim buffer
  if isStatusLine line then { context with statusCode := readStatus line context.statusCode }
  else if 58 ∉ line then context
  else
    let key := lower (trim (line.takeWhile (· ≠ 58)))
    let value := trim (line.dropWhile (· ≠ 58)).tail
    if key = text "accept-ranges" ∧ lower value = text "bytes" then { context with acceptRanges := true }
    else if key = text "etag" then { context with etag := some value }
    else if key = text "last-modified" then { context with lastModified := some value }
    else context

/-- `WriteContext`, with the caller's `write` and `progress` as a parameter of `writeCallback`;
`written` is what `write` was called with. -/
structure WriteContext where
  rejectRangeFallback : Bool
  statusCode : Int := 0
  exception : Option Exn := none
  written : List Bytes := []
  deriving DecidableEq, Repr

/-- What `write`, or `progress` after it, throws on some data, given what was written before. -/
abbrev Caller := List Bytes → Bytes → Option Exn

def writeHeaderForDownload (context : WriteContext) (buffer : Text) : WriteContext :=
  let line := trim buffer
  if isStatusLine line then { context with statusCode := readStatus line context.statusCode } else context

/-- The bytes taken, and the context afterwards. -/
def writeCallback (caller : Caller) (context : WriteContext) (data : Bytes) : Nat × WriteContext :=
  if context.rejectRangeFallback ∧ context.statusCode = 200 then (0, context)
  else
    let called := { context with written := context.written ++ [data] }
    match caller context.written data with
    | some e => (0, { called with exception := some e })
    | none => (data.length, called)

/-- libcurl hands over the body and gives up when a callback takes fewer bytes than it got. -/
def receive (caller : Caller) (context : WriteContext) : List Bytes → WriteContext × Bool
  | [] => (context, false)
  | data :: rest =>
    let (taken, context) := writeCallback caller context data
    if taken = data.length then receive caller context rest else (context, true)

/-- `curl_easy_perform` with the callbacks of a download. -/
def perform (caller : Caller) (rejectRangeFallback : Bool) (x : Exchange) : WriteContext × CurlCode :=
  let context := x.blocks.flatten.foldl writeHeaderForDownload { rejectRangeFallback }
  let (context, aborted) := receive caller context x.body
  (context, if aborted then .writeError else x.result)

/-! ## The requests -/

/-- The context `fetchMetadata` reads when its transfer is over. -/
def receivedHeaders (blocks : List (List Text)) : HeaderContext := blocks.flatten.foldl headerCallback {}

/-- `HttpProtocolHandler::fetchMetadata`; there is no exchange when curl does not initialise. -/
def fetchMetadata (url : Text) : Option Exchange → Except Exn RemoteFileInfo
  | none => .error initError
  | some x => do
    let headers := receivedHeaders x.blocks
    if x.result ≠ .ok then throw (transferError x x.result)
    throwForHttpStatus x.responseCode
    let fileSize := if 0 < x.contentLength then x.contentLength.toNat else 0
    pure {
      fileSize
      supportsRange := 0 < fileSize && (headers.acceptRanges || !isHttpUrl url)
      etag := headers.etag
      lastModified := headers.lastModified
      finalUrl := x.effectiveUrl.getD url }

/-- What `downloadRange` does after its transfer. -/
def rangeOutcome (url : Text) (x : Exchange) (context : WriteContext) (result : CurlCode) : Except Exn Unit :=
  match context.exception with
  | some e => .error e
  | none =>
    if isHttpUrl url ∧ x.responseCode = 200 then
      .error (.cget .rangeNotSupportedError (text "server ignored Range request"))
    else if result ≠ .ok then .error (transferError x result)
    else if rangeCanUseSuccessWithoutHttp206 url then .ok ()
    else if x.responseCode ≠ 206 then do
      throwForHttpStatus x.responseCode
      throw (.cget .httpStatusError (text "expected HTTP 206, got HTTP " ++ decimalInt x.responseCode))
    else .ok ()

/-- `HttpProtocolHandler::downloadRange`: how it ends, and what it gave to `write`. -/
def downloadRange (caller : Caller) (url : Text) : Option Exchange → Except Exn Unit × List Bytes
  | none => (.error initError, [])
  | some x =>
    let (context, result) := perform caller true x
    (rangeOutcome url x context result, context.written)

/-- `HttpProtocolHandler::downloadSingle`. -/
def downloadSingle (caller : Caller) : Option Exchange → Except Exn Unit × List Bytes
  | none => (.error initError, [])
  | some x =>
    let (context, result) := perform caller false x
    (match context.exception with
    | some e => .error e
    | none => if result ≠ .ok then .error (transferError x result) else throwForHttpStatus x.responseCode,
      context.written)

/-! ## Which response the metadata describe -/

/-- What `fetchMetadata` takes from the headers. -/
structure Metadata where
  acceptRanges : Bool
  etag : Option Text
  lastModified : Option Text
  deriving DecidableEq, Repr

inductive MetadataField where
  | acceptRanges | etag | lastModified
  deriving DecidableEq, Repr

def HeaderContext.metadata (c : HeaderContext) : Metadata := ⟨c.acceptRanges, c.etag, c.lastModified⟩

/-- The field a header line gives, if it gives one. -/
def givenField (buffer : Text) : Option MetadataField :=
  let line := trim buffer
  let key := lower (trim (line.takeWhile (· ≠ 58)))
  let value := trim (line.dropWhile (· ≠ 58)).tail
  if isStatusLine line ∨ 58 ∉ line then none
  else if key = text "accept-ranges" ∧ lower value = text "bytes" then some .acceptRanges
  else if key = text "etag" then some .etag
  else if key = text "last-modified" then some .lastModified
  else none

/-- The newer values, and the older ones where there are none. -/
def Metadata.over (new old : Metadata) : Metadata :=
  ⟨new.acceptRanges || old.acceptRanges, new.etag.or old.etag, new.lastModified.or old.lastModified⟩

def Metadata.has (m : Metadata) : MetadataField → Bool
  | .acceptRanges => m.acceptRanges
  | .etag => m.etag.isSome
  | .lastModified => m.lastModified.isSome

theorem Metadata.over_assoc (a b c : Metadata) : (a.over b).over c = a.over (b.over c) := by
  simp [Metadata.over, Bool.or_assoc, Option.or_assoc]

theorem Metadata.has_over (a b : Metadata) (f : MetadataField) : (a.over b).has f = (a.has f || b.has f) := by
  cases f <;> simp [Metadata.over, Metadata.has]

/-- Older values show exactly where a field is missing. -/
theorem Metadata.over_eq_iff (new old : Metadata) : new.over old = new ↔ ∀ f, old.has f = true → new.has f = true := by
  obtain ⟨a, e, l⟩ := new
  obtain ⟨a', e', l'⟩ := old
  constructor
  · intro h f hf
    have hhas : ((⟨a, e, l⟩ : Metadata).over ⟨a', e', l'⟩).has f = true := by rw [Metadata.has_over, hf, Bool.or_true]
    rwa [h] at hhas
  · intro h
    have hor : ∀ {x y : Option Text}, (y.isSome = true → x.isSome = true) → x.or y = x := by
      intro x y hxy
      cases x with
      | some _ => rfl
      | none => cases y <;> simp_all
    have ha : (a || a') = a := by
      have : a' = true → a = true := h .acceptRanges
      cases a <;> cases a' <;> simp_all
    simp only [Metadata.over, Metadata.mk.injEq]
    exact ⟨ha, hor (h .etag), hor (h .lastModified)⟩

/-- A line gives its value, whatever there was before. -/
theorem headerCallback_over (c : HeaderContext) (buffer : Text) :
    (headerCallback c buffer).metadata = (headerCallback {} buffer).metadata.over c.metadata := by
  simp only [headerCallback]
  split
  · rfl
  split
  · rfl
  repeat' split
  all_goals simp [HeaderContext.metadata, Metadata.over]

theorem headerCallback_has (buffer : Text) (f : MetadataField) :
    (headerCallback {} buffer).metadata.has f = true ↔ givenField buffer = some f := by
  simp only [headerCallback, givenField]
  by_cases hstatus : isStatusLine (trim buffer) = true
  · cases f <;> simp [hstatus, HeaderContext.metadata, Metadata.has]
  by_cases hcolon : 58 ∉ trim buffer
  · cases f <;> simp [hstatus, hcolon, HeaderContext.metadata, Metadata.has]
  simp only [hstatus, hcolon, Bool.false_eq_true, if_false, or_self]
  repeat' split
  all_goals cases f <;> simp_all [HeaderContext.metadata, Metadata.has]

theorem foldl_headerCallback (lines : List Text) : ∀ c : HeaderContext,
    (lines.foldl headerCallback c).metadata = (lines.foldl headerCallback {}).metadata.over c.metadata := by
  induction lines with
  | nil => exact fun _ => rfl
  | cons line lines ih =>
    intro c
    rw [List.foldl_cons, List.foldl_cons, ih (headerCallback c line), ih (headerCallback {} line), headerCallback_over,
      Metadata.over_assoc]

theorem foldl_headerCallback_has (lines : List Text) (f : MetadataField) :
    (lines.foldl headerCallback {}).metadata.has f = true ↔ ∃ line ∈ lines, givenField line = some f := by
  induction lines with
  | nil => cases f <;> simp [HeaderContext.metadata, Metadata.has]
  | cons line lines ih =>
    rw [List.foldl_cons, foldl_headerCallback, Metadata.has_over, Bool.or_eq_true, ih, headerCallback_has]
    simp [or_comm]

/-- `fetchMetadata` uses of the headers what they say of these fields. -/
theorem fetchMetadata_congr {url : Text} {x : Exchange} {blocks : List (List Text)}
    (h : (receivedHeaders x.blocks).metadata = (receivedHeaders blocks).metadata) :
    fetchMetadata url (some x) = fetchMetadata url (some { x with blocks }) := by
  simp only [HeaderContext.metadata, Metadata.mk.injEq] at h
  simp only [fetchMetadata, h.1, h.2.1, h.2.2, transferError]

/-- Each response is laid over the ones before it. -/
theorem receivedHeaders_append (earlier : List (List Text)) (last : List Text) :
    (receivedHeaders (earlier ++ [last])).metadata =
      (receivedHeaders [last]).metadata.over (receivedHeaders earlier).metadata := by
  simp only [receivedHeaders, List.flatten_append, List.foldl_append, List.flatten_singleton]
  rw [foldl_headerCallback]

/-- The metadata are those of the last response alone exactly when it gives every field that
a response before it gave. -/
theorem metadata_of_last_iff (earlier : List (List Text)) (last : List Text) :
    (receivedHeaders (earlier ++ [last])).metadata = (receivedHeaders [last]).metadata ↔
      ∀ field, (∃ block ∈ earlier, ∃ line ∈ block, givenField line = some field) →
        ∃ line ∈ last, givenField line = some field := by
  rw [receivedHeaders_append, Metadata.over_eq_iff]
  refine forall_congr' fun field => ?_
  have hflat : (∃ line ∈ earlier.flatten, givenField line = some field) ↔
      ∃ block ∈ earlier, ∃ line ∈ block, givenField line = some field := by
    simp only [List.mem_flatten]
    grind
  simp only [receivedHeaders, foldl_headerCallback_has, List.flatten_singleton, hflat]

/-- A redirect's ETag is taken for that of a file whose response has none. -/
theorem redirect_etag_leaks :
    ¬ ∀ (earlier : List (List Text)) (last : List Text),
      (receivedHeaders (earlier ++ [last])).metadata = (receivedHeaders [last]).metadata := by
  intro h
  have := h [[text "HTTP/1.1 302 Found", text "ETag: \"page\"", text "Location: /file"]] [text "HTTP/1.1 200 OK"]
  revert this
  decide +kernel

/-! ## Which bodies are written -/

/-- The head of a response: its status line in parts, and the lines after it. -/
structure ResponseHead where
  version : Text
  status : Nat
  reason : Text
  fields : List Text
  version_plain : ∀ c ∈ version, isSpace c = false
  status_lt : status < 1000

def ResponseHead.statusLine (r : ResponseHead) : Text :=
  text "HTTP/" ++ r.version ++ 32 :: decimal r.status ++ 32 :: r.reason ++ [13, 10]

/-- The lines as the header callback gets them. -/
def ResponseHead.lines (r : ResponseHead) : List Text := r.statusLine :: r.fields

/-- The status after one more line. -/
def statusAfter (status : Int) (line : Text) : Int :=
  if isStatusLine (trim line) then readStatus (trim line) status else status

/-- The status when every line that begins like a status line has been read. -/
def ResponseHead.announced (r : ResponseHead) : Int := r.fields.foldl statusAfter r.status

theorem ResponseHead.announced_eq {r : ResponseHead} (h : ∀ line ∈ r.fields, isStatusLine (trim line) = false) :
    r.announced = r.status := by
  have stays : ∀ (fields : List Text) (status : Int), (∀ line ∈ fields, isStatusLine (trim line) = false) →
      fields.foldl statusAfter status = status := by
    intro fields status
    induction fields with
    | nil => exact fun _ => rfl
    | cons line fields ih =>
      intro h
      rw [List.foldl_cons, statusAfter, if_neg (by simp [h line List.mem_cons_self])]
      exact ih fun l hl => h l (List.mem_cons_of_mem _ hl)
  exact stays r.fields r.status h

theorem readStatus_statusLine (r : ResponseHead) (old : Int) :
    isStatusLine (trim r.statusLine) = true ∧ readStatus (trim r.statusLine) old = r.status := by
  obtain ⟨c, s, hs, hc, -⟩ := Json.decimal_head r.status
  obtain ⟨d, hd⟩ : ∃ d, (decimal r.status).getLast? = some d := ⟨_, List.getLast?_eq_some_getLast (by simp [hs])⟩
  have hdigit : Json.isDigit d = true := Json.isDigit_decimal _ d (List.mem_of_getLast? hd)
  -- Nothing before the last digit of the status is trimmed.
  have htrim : trim r.statusLine =
      (text "HTTP/" ++ r.version ++ 32 :: decimal r.status) ++ trimEnd (32 :: r.reason ++ [13, 10]) := by
    have := trim_append (a := text "HTTP/" ++ r.version ++ 32 :: decimal r.status) (b := 32 :: r.reason ++ [13, 10])
      (c := 72) (d := d) rfl rfl (by rw [List.getLast?_append, List.getLast?_cons, hd]; rfl) (isSpace_digit hdigit)
    simpa [ResponseHead.statusLine] using this
  have hrest : ∀ b ∈ (trimEnd (32 :: r.reason ++ [13, 10])).head?, Json.isDigit b = false := by
    intro b hb
    have hstart := trimEnd_prefix (32 :: r.reason ++ [13, 10])
    generalize trimEnd (32 :: r.reason ++ [13, 10]) = rest at hb hstart
    cases rest with
    | nil => cases hb
    | cons x y =>
      cases hb
      rw [List.cons_append, List.cons_prefix_cons] at hstart
      rw [hstart.1]
      rfl
  refine ⟨by rw [htrim]; rfl, ?_⟩
  generalize trimEnd (32 :: r.reason ++ [13, 10]) = rest at htrim hrest
  have hword : ∀ b ∈ text "HTTP/" ++ r.version, (!isSpace b) = true := by
    intro b hb
    rcases List.mem_append.1 hb with hb | hb
    · exact (by decide +kernel : ∀ b ∈ text "HTTP/", (!isSpace b) = true) b hb
    · simp [r.version_plain b hb]
  have hdrop : ((trim r.statusLine).dropWhile isSpace).dropWhile (fun b => !isSpace b) =
      32 :: (decimal r.status ++ rest) := by
    have hfront : (trim r.statusLine).dropWhile isSpace = trim r.statusLine := by rw [htrim]; rfl
    rw [hfront, htrim, List.append_assoc, List.dropWhile_append_of_pos hword]
    rfl
  have hnumber : (32 :: (decimal r.status ++ rest)).dropWhile isSpace = decimal r.status ++ rest := by
    rw [hs, List.cons_append, List.dropWhile_cons_of_pos (by decide),
      List.dropWhile_cons_of_neg (by simp [isSpace_digit hc])]
  rw [readStatus, hdrop, hnumber]
  have hread := readLong_decimal (n := r.status) (by have := r.status_lt; omega) hrest
  rw [hs, List.cons_append] at hread ⊢
  exact hread

theorem foldl_writeHeader (lines : List Text) : ∀ c : WriteContext, lines.foldl writeHeaderForDownload c =
    { c with statusCode := lines.foldl statusAfter c.statusCode } := by
  induction lines with
  | nil => exact fun _ => rfl
  | cons line lines ih =>
    intro c
    rw [List.foldl_cons, List.foldl_cons, ih]
    simp only [writeHeaderForDownload, statusAfter]
    split <;> rfl

/-- The context when the body begins. -/
theorem headers_announced (c : WriteContext) (earlier : List (List Text)) (last : ResponseHead) :
    (earlier ++ [last.lines]).flatten.foldl writeHeaderForDownload c = { c with statusCode := last.announced } := by
  rw [foldl_writeHeader, List.flatten_append, List.foldl_append, List.flatten_singleton, ResponseHead.lines,
    List.foldl_cons]
  obtain ⟨hstatus, hread⟩ := readStatus_statusLine last (earlier.flatten.foldl statusAfter c.statusCode)
  rw [statusAfter, if_pos hstatus, hread]
  rfl

variable {caller : Caller} {context : WriteContext}

theorem receive_rejected (h : context.rejectRangeFallback = true ∧ context.statusCode = 200) :
    ∀ body : List Bytes, (receive caller context body).1.written = context.written
  | [] => rfl
  | data :: rest => by
    have hcall : writeCallback caller context data = (0, context) := by simp [writeCallback, h]
    simp only [receive, hcall]
    split
    · exact receive_rejected h rest
    · rfl

variable (caller) in
theorem writeCallback_accepted (h : ¬ (context.rejectRangeFallback = true ∧ context.statusCode = 200)) (data : Bytes) :
    (writeCallback caller context data).2.written = context.written ++ [data] ∧
      ¬ ((writeCallback caller context data).2.rejectRangeFallback = true ∧
        (writeCallback caller context data).2.statusCode = 200) := by
  simp only [writeCallback, h, if_false]
  split <;> exact ⟨rfl, h⟩

theorem receive_accepted (body : List Bytes) : ∀ {context : WriteContext},
    ¬ (context.rejectRangeFallback = true ∧ context.statusCode = 200) →
      ((∃ data ∈ (receive caller context body).1.written, data ≠ []) ↔
        (∃ data ∈ context.written, data ≠ []) ∨ ∃ data ∈ body, data ≠ []) := by
  induction body with
  | nil => simp [receive]
  | cons data rest ih =>
    intro context h
    obtain ⟨hwritten, hnext⟩ := writeCallback_accepted caller h data
    have hgrows : (∃ d ∈ (writeCallback caller context data).2.written, d ≠ []) ↔
        (∃ d ∈ context.written, d ≠ []) ∨ data ≠ [] := by
      rw [hwritten]
      simp [or_and_right, exists_or]
    simp only [receive]
    split
    · rw [ih hnext, hgrows]
      simp [or_assoc]
    · rename_i htaken
      -- The transfer ends here, and only a callback that got bytes can end it.
      have hdata : data ≠ [] := by
        rintro rfl
        apply htaken
        simp only [writeCallback, h, if_false]
        split <;> rfl
      rw [hgrows]
      simp [hdata]

/-- The caller's `write` gets bytes exactly when the response has any and its announced status is not 200. -/
theorem downloadRange_writes (caller : Caller) (url : Text) (x : Exchange) (earlier : List (List Text))
    (last : ResponseHead) (hblocks : x.blocks = earlier ++ [last.lines]) :
    (∃ data ∈ (downloadRange caller url (some x)).2, data ≠ []) ↔ last.announced ≠ 200 ∧
    ∃ data ∈ x.body, data ≠ [] := by
  simp only [downloadRange, perform, hblocks, headers_announced]
  by_cases h : last.announced = 200
  · rw [receive_rejected ⟨rfl, h⟩]
    simp [h]
  · rw [receive_accepted x.body (by simp [h])]
    simp [h]

/-- Bytes are written for a 206 only, exactly when the response is a 206, or is taken for a 200, or has no body. -/
theorem range_writes_partial_content_iff (caller : Caller) (url : Text) (x : Exchange) (earlier : List (List Text))
    (last : ResponseHead) :
    ((∃ data ∈ (downloadRange caller url (some { x with blocks := earlier ++ [last.lines] })).2, data ≠ []) →
        last.status = 206) ↔
      last.status = 206 ∨ last.announced = 200 ∨ ∀ data ∈ x.body, data = [] := by
  rw [downloadRange_writes caller url _ earlier last rfl]
  constructor
  · intro h
    by_cases hannounced : last.announced = 200
    · exact .inr (.inl hannounced)
    by_cases hbody : ∃ data ∈ x.body, data ≠ []
    · exact .inl (h ⟨hannounced, hbody⟩)
    · exact .inr (.inr (by simpa using hbody))
  · rintro (h | h | h) ⟨hannounced, data, hdata, hne⟩
    · exact h
    · exact absurd h hannounced
    · exact absurd (h data hdata) hne

/-- The body of a 404 reaches the part file. -/
theorem error_body_written :
    ¬ ∀ (caller : Caller) (url : Text) (x : Exchange) (earlier : List (List Text)) (last : ResponseHead),
      (∃ data ∈ (downloadRange caller url (some { x with blocks := earlier ++ [last.lines] })).2, data ≠ []) →
        last.status = 206 := by
  intro h
  have := h (fun _ _ => none) (text "http://host/file")
    { blocks := [], body := [text "not found"], responseCode := 404 } []
    { version := text "1.1", status := 404, reason := text "Not Found"
      fields := [text "Content-Length: 9\r\n", text "\r\n"]
      version_plain := by decide +kernel
      status_lt := by decide }
  revert this
  decide +kernel

/-! ## The handler as the engine uses it -/

/-- A caller whose callbacks never throw. -/
def quiet : Caller := fun _ _ => none

/-- A request as the engine's model has it; `flush i` is the flag of the i-th block. -/
def transferOf (flush : Nat → Bool) (r : Except Exn Unit × List Bytes) : Transfer where
  blocks := r.2.mapIdx (fun i data => { data, flush := flush i })
  result := r.1

/-- The engine's protocol, made of the exchanges with the server. -/
def protocol (flush : Nat → Bool) (metadata : Text → Option Exchange) (range : Text → Nat → Nat → Nat → Option Exchange)
    (single : Text → Option Exchange) : Protocol where
  fetchMetadata url := fetchMetadata url (metadata url)
  downloadRange url start stop attempt := transferOf flush (downloadRange quiet url (range url start stop attempt))
  downloadSingle url := transferOf flush (downloadSingle quiet (single url))

theorem bytes_transferOf (flush : Nat → Bool) (r : Except Exn Unit × List Bytes) :
    (transferOf flush r).bytes = r.2.flatten := by
  have hdata : (transferOf flush r).blocks.map (·.data) = r.2 := by
    apply List.ext_getElem
    · simp [transferOf]
    · simp [transferOf]
  rw [Transfer.bytes, List.flatMap_def, hdata]

theorem receive_quiet : ∀ (body : List Bytes) {context : WriteContext},
    ¬ (context.rejectRangeFallback = true ∧ context.statusCode = 200) →
      (receive quiet context body).1.written = context.written ++ body
  | [], _, _ => (List.append_nil _).symm
  | data :: rest, context, h => by
    have hcall : writeCallback quiet context data =
        (data.length, { context with written := context.written ++ [data] }) := by
      simp [writeCallback, h, quiet]
    simp only [receive, hcall, if_true]
    rw [receive_quiet rest (by exact h), List.append_assoc, List.singleton_append]

theorem receive_accepted_prefix (body : List Bytes) : ∀ {context : WriteContext},
    ¬ (context.rejectRangeFallback = true ∧ context.statusCode = 200) →
      (receive caller context body).1.written <+: context.written ++ body := by
  induction body with
  | nil => intro context _; simp [receive]
  | cons data rest ih =>
    intro context h
    obtain ⟨hwritten, hnext⟩ := writeCallback_accepted caller h data
    simp only [receive]
    split
    · have := ih hnext
      rwa [hwritten, List.append_assoc, List.singleton_append] at this
    · rw [hwritten]
      exact (List.prefix_append_right_inj _).2 (by simp)

/-- A caller that throws has got a part of what one that never throws gets. -/
theorem downloadRange_prefix (caller : Caller) (url : Text) (x : Option Exchange) :
    (downloadRange caller url x).2 <+: (downloadRange quiet url x).2 := by
  cases x with
  | none => exact List.prefix_rfl
  | some x =>
    simp only [downloadRange, perform]
    generalize x.blocks.flatten.foldl writeHeaderForDownload { rejectRangeFallback := true } = context
    by_cases h : context.rejectRangeFallback = true ∧ context.statusCode = 200
    · rw [receive_rejected h, receive_rejected h]
    · rw [receive_quiet x.body h]
      exact receive_accepted_prefix x.body h

/-- The engine gets the whole body of every response that is not taken for a 200, errors included. -/
theorem range_transfer_bytes (flush : Nat → Bool) (url : Text) (x : Exchange) (earlier : List (List Text))
    (last : ResponseHead) :
    (transferOf flush (downloadRange quiet url (some { x with blocks := earlier ++ [last.lines] }))).bytes =
      if last.announced = 200 then [] else x.body.flatten := by
  rw [bytes_transferOf]
  simp only [downloadRange, perform, headers_announced]
  by_cases h : last.announced = 200
  · rw [receive_rejected ⟨rfl, h⟩, if_pos h]
    rfl
  · rw [receive_quiet x.body (by simp [h]), if_neg h]
    rfl

end HttpProtocolHandler

end Cget
