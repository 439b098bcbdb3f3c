import V2I.Lib.Qsort
import V2I.Zasbsc

/-!
# V2I.Utils.Uri

`uri_impl` of `uri.cpp`: the parser (`load`), the printer (`tostring`), and the calls that
change the queries of a uri.

Strings are lists of bytes. A C string ends at its first zero byte, a `std::string` may hold
zero bytes. `load` has three outcomes: the uri, a rejected string, and, where the code reads
past the terminator, none at all. Whether `char` is signed, and so whether it can be above
127, depends on the platform.
-/

namespace V2I.Uri

abbrev zero : UInt8 := 0
abbrev percent : UInt8 := 37
abbrev amp : UInt8 := 38
abbrev slash : UInt8 := 47
abbrev colon : UInt8 := 58
abbrev equals : UInt8 := 61
abbrev question : UInt8 := 63
abbrev atSign : UInt8 := 64

/-- `uri_impl::query_item` -/
structure QueryItem where
  key : Bytes
  value : Bytes
  utf8 : Bool
  deriving DecidableEq

/-- `uri_impl`. The names are there when `has_user_passwd` is; the file name is an offset
into the full path. -/
structure UriImpl where
  scheme : Bytes
  userPasswd : Option (Bytes × Bytes)
  fullpath : Bytes
  port : ℤ
  portStartColon : ℕ
  filename : Option ℕ
  queries : List QueryItem
  deriving DecidableEq

/-- `strchr`: what stands before the first occurrence of a byte. -/
def upTo (c : UInt8) : Bytes → Bytes
  | [] => []
  | b :: bs => if b = c then [] else b :: upTo c bs

/-- `strchr`: what stands behind the first occurrence of a byte. -/
def behind (c : UInt8) : Bytes → Bytes
  | [] => []
  | b :: bs => if b = c then bs else behind c bs

/-- `c_str()`: what a C function sees of a string. -/
def cstr (s : Bytes) : Bytes := upTo zero s

/-- `get_host()`, none when its assertion fails. -/
def getHost (u : UriImpl) : Option Bytes :=
  if 0 ≤ u.port then
    if u.portStartColon = 0 then none else some (u.fullpath.take u.portStartColon)
  else
    match u.filename with
    | some i => some (u.fullpath.take i)
    | none => some u.fullpath

/-! ## Printing -/

/-- A digit of `%02X`. -/
def hexChar (n : ℕ) : UInt8 := if n < 10 then UInt8.ofNat (48 + n) else UInt8.ofNat (55 + n)

/-- `sprintf(hex, "%%%02X", ch)` -/
def hexByte (b : UInt8) : Bytes := [percent, hexChar (b.toNat / 16), hexChar (b.toNat % 16)]

/-- The value of a query as `tostring` writes it. -/
def printValue (q : QueryItem) : Bytes :=
  if q.utf8 then (cstr q.value).flatMap hexByte else q.value

/-- A query as `tostring` writes it. -/
def printItem (q : QueryItem) : Bytes := q.key ++ equals :: printValue q

/-- All queries, with `&` between them. -/
def printQueries : List QueryItem → Bytes
  | [] => []
  | [q] => printItem q
  | q :: q' :: qs => printItem q ++ amp :: printQueries (q' :: qs)

/-- `username:password@` -/
def printUser : Option (Bytes × Bytes) → Bytes
  | none => []
  | some (user, passwd) => user ++ colon :: (passwd ++ [atSign])

/-- `tostring()` -/
def tostring (u : UriImpl) : Bytes :=
  u.scheme ++ [colon, slash, slash] ++ printUser u.userPasswd ++ u.fullpath ++
    (if u.queries = [] then [] else question :: printQueries u.queries)

/-! ## Parsing the parts -/

def isDigit (c : UInt8) : Bool := 48 ≤ c && c ≤ 57

def isAlaphbet (c : UInt8) : Bool := (97 ≤ c && c ≤ 122) || (65 ≤ c && c ≤ 90)

/-- `check_scheme_validty` -/
def checkSchemeValidty (s : Bytes) : Bool :=
  s ≠ [] && s.all fun c => isDigit c || isAlaphbet c || c == 95 || c == 45

/-- `strstr(s, "://")`: what is before and after it. -/
def splitScheme : Bytes → Option (Bytes × Bytes)
  | [] => none
  | c :: cs =>
      match c :: cs with
      | 58 :: 47 :: 47 :: rest => some ([], rest)
      | _ => (splitScheme cs).map fun r => (c :: r.1, r.2)

/-- `parse_user_passwd`: the names and what follows them. The last check compares with the
end of the whole part, so it does not find an empty password. -/
def parseUserPasswd (str : Bytes) : Option (Option (Bytes × Bytes) × Bytes) :=
  if atSign ∉ str then some (none, str)
  else
    let names := upTo atSign str
    if colon ∉ names then none
    else
      let user := upTo colon names
      if user = [] then none
      else if user.length + 1 = str.length then none
      else some (some (user, behind colon names), behind atSign str)

/-- The digits of a port. -/
def readPort (port : ℕ) : Bytes → Option ℕ
  | [] => some port
  | c :: cs =>
      if !isDigit c then none
      else
        let port := port * 10 + (c.toNat - 48)
        if 0xFFFF < port then none else readPort port cs

/-- `load_port`: the port, -1 for none, and the position of its colon. The check that a host
stands before the colon compares with the position behind the colon and never fails. -/
def loadPort (fullpath : Bytes) : Option (ℤ × ℕ) :=
  if 1 < fullpath.count colon then none
  else if colon ∉ fullpath then some (-1, 0)
  else
    let digits := upTo slash (behind colon fullpath)
    if 5 < digits.length then none
    else (readPort 0 digits).map fun port => ((port : ℤ), (upTo colon fullpath).length)

/-- `check_fullpath_validty`. The search for colons goes to the end of the text, which is
the end of the queries. -/
def checkFullpathValidty (fullpath text : Bytes) (port : ℤ) : Bool :=
  fullpath ≠ [] &&
    (text.count colon = 0 || (0 ≤ port && text.count colon = 1)) &&
    fullpath.all fun c => isDigit c || isAlaphbet c || !([92, 42, 34, 60, 62, 124].contains c)

/-- `load_filename`: where the file name starts. -/
def loadFilename (fullpath : Bytes) : Option (Option ℕ) :=
  if slash ∉ fullpath then some none
  else
    let name := upTo slash fullpath.reverse
    if name.length + 1 = fullpath.length then none
    else if name = [] then some none
    else some (some (fullpath.length - name.length))

/-! ## Parsing the queries -/

def hexDigit (c : UInt8) : Option ℕ :=
  if isDigit c then some (c.toNat - 48)
  else if 97 ≤ c && c ≤ 102 then some (10 + (c.toNat - 97))
  else if 65 ≤ c && c ≤ 70 then some (10 + (c.toNat - 65))
  else none

section Char

variable (signedChar : Bool)

/-- `*str > 127` -/
def high (c : UInt8) : Bool := !signedChar && 127 < c

/-- The loop over a value in `load_kv_pairs` and `add_query`: `sid` digits of an escape are
to come, `c` is what there is of it. An escape that is cut short is dropped. -/
def decodeValue (c sid : ℕ) : Bytes → Option (Bytes × Bool)
  | [] => some ([], false)
  | b :: bs =>
      if b = percent then
        if sid ≠ 0 then none else (decodeValue c 2 bs).map fun r => (r.1, true)
      else if sid ≠ 0 then
        match hexDigit b with
        | none => none
        | some d =>
            if sid - 1 = 0 then
              (decodeValue 0 0 bs).map fun r => (UInt8.ofNat (c * 16 + d) :: r.1, r.2 || high signedChar b)
            else (decodeValue (c * 16 + d) (sid - 1) bs).map fun r => (r.1, r.2 || high signedChar b)
      else (decodeValue c 0 bs).map fun r => (b :: r.1, r.2 || high signedChar b)

/-- The loop of `load_kv_pairs`; `list` grows at its front. The inner `none` is a negative
return value. A key that no `=` ends takes the cursor past the terminator. -/
def loadKvLoop : ℕ → List QueryItem → Bytes → Option (Option (List QueryItem))
  | _, list, [] => some (some list)
  | 0, _, _ :: _ => none
  | fuel + 1, list, c :: cs =>
      let key := upTo equals (c :: cs)
      if key = [] then some none
      else if equals ∉ c :: cs then none
      else
        let str := behind equals (c :: cs)
        match decodeValue signedChar 0 0 (upTo amp str) with
        | none => some none
        | some (value, utf8) => loadKvLoop fuel (⟨key, value, utf8⟩ :: list) (behind amp str)

/-- `query_compare` -/
def queryCompare (a b : QueryItem) : Ordering := compare a.key b.key

variable (Q : Qsort QueryItem)

/-- `load_kv_pairs(str)`: the queries it commits. All of its negative values count as true,
so a bad query string leaves a uri without queries. -/
def loadKvPairs (str : Bytes) : Option (List QueryItem) :=
  match loadKvLoop signedChar str.length [] str with
  | none => none
  | some none => some []
  | some (some list) => some (Q.sort queryCompare list)

/-- `load(uristr)` on what follows the scheme. -/
def loadRest (scheme text : Bytes) : Option (Option UriImpl) :=
  let str := upTo question text
  let tail := text.drop str.length
  if str = [] then some none
  else
    match parseUserPasswd str with
    | none => some none
    | some (userPasswd, fullpath) =>
        match loadPort fullpath with
        | none => some none
        | some (port, portStartColon) =>
            if !checkFullpathValidty fullpath (fullpath ++ tail) port then some none
            else
              match loadFilename fullpath with
              | none => some none
              | some filename =>
                  (loadKvPairs signedChar Q (tail.drop 1)).map fun queries =>
                    some ⟨scheme, userPasswd, fullpath, port, portStartColon, filename, queries⟩

/-- `load(uristr)` -/
def load (uristr : Bytes) : Option (Option UriImpl) :=
  match splitScheme (cstr uristr) with
  | none => some none
  | some (scheme, text) =>
      if !checkSchemeValidty scheme then some none else loadRest signedChar Q scheme text

/-! ## Changing the queries -/

/-- `add_query(key, value)`, none when it fails. The flag `utf8` it computes is not kept. -/
def addQuery (u : UriImpl) (key value : Bytes) : Option UriImpl :=
  let key := cstr key
  let value := cstr value
  if key = [] ∨ value = [] then none
  else
    match decodeValue signedChar 0 0 value with
    | none => none
    | some (tmp, _) =>
        some { u with queries := Q.sort queryCompare (u.queries ++ [⟨key, tmp, false⟩]) }

/-- Set the value of the first query with a key. -/
def setValue (key value : Bytes) : List QueryItem → Option (List QueryItem)
  | [] => none
  | q :: qs =>
      if cstr q.key = key then some ({ q with value := value } :: qs)
      else (setValue key value qs).map (q :: ·)

/-- `change_query(key, value)`, none when it fails. -/
def changeQuery (u : UriImpl) (key value : Bytes) : Option UriImpl :=
  (setValue (cstr key) (cstr value) u.queries).map fun queries => { u with queries := queries }

/-- A uri object, by the calls that made it. A `change(uristr)` is a new `load`. -/
inductive Obtained : UriImpl → Prop
  | load {s : Bytes} {u : UriImpl} : load signedChar Q s = some (some u) → Obtained u
  | addQuery {u u' : UriImpl} {key value : Bytes} :
      Obtained u → addQuery signedChar Q u key value = some u' → Obtained u'
  | changeQuery {u u' : UriImpl} {key value : Bytes} :
      Obtained u → changeQuery u key value = some u' → Obtained u'

end Char

end V2I.Uri
