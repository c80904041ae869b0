import ContextFS.Store.Hash

/-!
# Line records

Agent-state and union-state records are text: a versioned header line, then lines
`key=value`.  Free text in a value is percent-encoded.  Both readers share the loop over the
lines, which skips empty lines and stops at the first one it cannot take.
-/

namespace ContextFS

/-- The bytes of a name or a fixed text. -/
def ascii (s : String) : Bytes := s.toUTF8.toList

/-- `percent_encode`. -/
def percentEncode (text : Bytes) : Bytes :=
  text.flatMap fun c =>
    if c = 37 then ascii "%25"
    else if c = 10 then ascii "%0A"
    else if c = 13 then ascii "%0D"
    else if c = 61 then ascii "%3D"
    else if c = 124 then ascii "%7C"
    else if c = 32 then ascii "%20"
    else [c]

/-- `percent_decode`. -/
def percentDecode : Bytes → Except String Bytes
  | [] => .ok []
  | c :: rest =>
      if c = 37 then
        match rest with
        | hi :: lo :: rest =>
            match hexVal hi, hexVal lo with
            | some h, some l => (percentDecode rest).map (UInt8.ofNat (16 * h + l) :: ·)
            | _, _ => .error "percent-decode: invalid hex digit"
        | _ => .error "percent-decode: truncated escape"
      else (percentDecode rest).map (c :: ·)

def isDigit (c : UInt8) : Bool := 48 ≤ c && c ≤ 57

/-- The number a string of digits spells. -/
def digitsValue (text : Bytes) : Nat := text.foldl (fun n c => 10 * n + (c.toNat - 48)) 0

/-- `parse_u64`: `strtoull` refuses what does not fit 64 bits. -/
def parseU64 (text : Bytes) : Except String UInt64 :=
  if text = [] then .error "empty integer field"
  else if !text.all isDigit then .error "non-digit in integer field"
  else if 2 ^ 64 ≤ digitsValue text then .error "integer field parse failed"
  else .ok (UInt64.ofNat (digitsValue text))

/-- `parse_u32`. -/
def parseU32 (text : Bytes) : Except String UInt32 :=
  match parseU64 text with
  | .error err => .error err
  | .ok v =>
      if 2 ^ 32 ≤ v.toNat then .error "integer field out of u32 range"
      else .ok (UInt32.ofNat v.toNat)

/-- The lines of a text; a last line without its newline counts. -/
def splitLines : Bytes → List Bytes
  | [] => [[]]
  | c :: rest =>
      if c = 10 then [] :: splitLines rest
      else
        match splitLines rest with
        | [] => [[c]]
        | line :: lines => (c :: line) :: lines

/-- The key and the value around the first `=`. -/
def splitKeyValue (line : Bytes) : Option (Bytes × Bytes) :=
  if line.contains 61 then some (line.takeWhile (· != 61), (line.dropWhile (· != 61)).drop 1)
  else none

/-- One line of a record. -/
def readLine {R : Type} (assign : R → Bytes → Bytes → Except String R) (record : R)
    (line : Bytes) : Except String R :=
  if line = [] then .ok record
  else
    match splitKeyValue line with
    | none => .error "line missing '=' separator"
    | some (key, value) => assign record key value

/-- A record body with its header; `what` names it in the error texts. -/
def readTextRecord {R : Type} (what : String) (header : Bytes)
    (assign : R → Bytes → Bytes → Except String R) (empty : R) (body : Bytes) : Except String R :=
  if body = [] then .error ("empty " ++ what ++ " body")
  else if body.length < header.length then .error (what ++ " body shorter than header")
  else if body.take header.length ≠ header then .error ("missing or incorrect " ++ what ++ " header")
  else (splitLines (body.drop header.length)).foldlM (readLine assign) empty

end ContextFS
