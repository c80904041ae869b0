import ContextFS.Lib.Json
import ContextFS.State.TextRecord

/-!
# JSON in the control protocol

The escaper of the daemon's answers and the readers of its requests: white space, strings,
numbers and values that are no containers.  A position in the text is the text behind it.
-/

namespace ContextFS
namespace ControlProtocol

open Lib

/-- What `json_escape` writes for one byte; the last escape is `"\\u%04x"`. -/
def escapeByte (c : UInt8) : Bytes :=
  if c = 34 then [92, 34]
  else if c = 92 then [92, 92]
  else if c = 10 then [92, 110]
  else if c = 13 then [92, 114]
  else if c = 9 then [92, 116]
  else if c < 32 then
    [92, 117, 48, 48, ContextFS.hexDigit (c.toNat / 16), ContextFS.hexDigit (c.toNat % 16)]
  else [c]

/-- `json_escape`. -/
def jsonEscape (s : Bytes) : Bytes := s.flatMap escapeByte

/-- `is_json_ws`. -/
def isJsonWs (c : UInt8) : Bool := c == 32 || c == 9 || c == 10 || c == 13

/-- `skip_json_ws`. -/
def skipJsonWs (json : Bytes) : Bytes := json.dropWhile isJsonWs

/-- `append_utf8`. -/
def appendUtf8 (codepoint : Nat) (out : Bytes) : Option Bytes :=
  if 0x10ffff < codepoint then none
  else if 0xd800 ≤ codepoint ∧ codepoint ≤ 0xdfff then none
  else if codepoint ≤ 0x7f then some (out ++ [UInt8.ofNat codepoint])
  else if codepoint ≤ 0x7ff then
    some (out ++ [UInt8.ofNat (0xc0 ||| codepoint >>> 6), UInt8.ofNat (0x80 ||| codepoint &&& 0x3f)])
  else if codepoint ≤ 0xffff then
    some (out ++ [UInt8.ofNat (0xe0 ||| codepoint >>> 12),
      UInt8.ofNat (0x80 ||| (codepoint >>> 6) &&& 0x3f), UInt8.ofNat (0x80 ||| codepoint &&& 0x3f)])
  else
    some (out ++ [UInt8.ofNat (0xf0 ||| codepoint >>> 18),
      UInt8.ofNat (0x80 ||| (codepoint >>> 12) &&& 0x3f),
      UInt8.ofNat (0x80 ||| (codepoint >>> 6) &&& 0x3f), UInt8.ofNat (0x80 ||| codepoint &&& 0x3f)])

/-- `parse_json_hex4`; `hex_digit` is `hexVal`. -/
def parseJsonHex4 (json : Bytes) : Option (Nat × Bytes) :=
  if json.length < 4 then none
  else
    ((json.take 4).foldlM (fun value c => (hexVal c).map fun d => value <<< 4 ||| d) 0).map
      fun value => (value, json.drop 4)

/-- The branch of `parse_json_string` behind `\u`. -/
def parseUnicode (out json : Bytes) : Option (Bytes × Bytes) := do
  let (value, rest) ← parseJsonHex4 json
  if 0xd800 ≤ value ∧ value ≤ 0xdbff then
    if rest.take 2 = [92, 117] then
      let (low, rest) ← parseJsonHex4 (rest.drop 2)
      if low < 0xdc00 ∨ 0xdfff < low then none
      else
        let out ← appendUtf8 (0x10000 + ((value - 0xd800) <<< 10 ||| (low - 0xdc00))) out
        some (out, rest)
    else none
  else if 0xdc00 ≤ value ∧ value ≤ 0xdfff then none
  else
    let out ← appendUtf8 value out
    some (out, rest)

/-- The branch of `parse_json_string` behind a backslash. -/
def parseEscape (out : Bytes) : Bytes → Option (Bytes × Bytes)
  | [] => none
  | esc :: rest =>
      if esc = 34 then some (out ++ [34], rest)
      else if esc = 92 then some (out ++ [92], rest)
      else if esc = 47 then some (out ++ [47], rest)
      else if esc = 98 then some (out ++ [8], rest)
      else if esc = 102 then some (out ++ [12], rest)
      else if esc = 110 then some (out ++ [10], rest)
      else if esc = 114 then some (out ++ [13], rest)
      else if esc = 116 then some (out ++ [9], rest)
      else if esc = 117 then parseUnicode out rest
      else none

/-- The loop of `parse_json_string`; every round takes a byte, so the length is fuel enough. -/
def parseStringLoop : Nat → Bytes → Bytes → Option (Bytes × Bytes)
  | 0, _, _ => none
  | _ + 1, _, [] => none
  | fuel + 1, out, c :: rest =>
      if c = 34 then some (out, rest)
      else if c = 92 then do
        let (out, rest) ← parseEscape out rest
        parseStringLoop fuel out rest
      else if c < 32 then none
      else parseStringLoop fuel (out ++ [c]) rest

/-- `parse_json_string`: the decoded string and the text behind it. -/
def parseJsonString : Bytes → Option (Bytes × Bytes)
  | [] => none
  | c :: rest => if c = 34 then parseStringLoop rest.length [] rest else none

/-- `consume_json_literal`. -/
def consumeJsonLiteral (json literal : Bytes) : Option Bytes :=
  if json.take literal.length = literal then some (json.drop literal.length) else none

/-- Digits, at least one. -/
def skipSomeDigits (json : Bytes) : Option Bytes :=
  let rest := json.dropWhile isDigit
  if rest.length = json.length then none else some rest

/-- `skip_json_number` up to the point. -/
def skipIntPart : Bytes → Option Bytes
  | [] => none
  | c :: rest =>
      if !isDigit c then none
      else if c = 48 then some rest
      else some ((c :: rest).dropWhile isDigit)

/-- `skip_json_number` from the point on. -/
def skipFracPart : Bytes → Option Bytes
  | [] => some []
  | c :: rest => if c = 46 then skipSomeDigits rest else some (c :: rest)

/-- `skip_json_number` from the exponent on. -/
def skipExpPart : Bytes → Option Bytes
  | [] => some []
  | c :: rest =>
      if c = 101 ∨ c = 69 then
        skipSomeDigits (if rest.head? = some 43 ∨ rest.head? = some 45 then rest.tail else rest)
      else some (c :: rest)

/-- `skip_json_number`. -/
def skipJsonNumber (json : Bytes) : Option Bytes := do
  let rest ← skipIntPart (if json.head? = some 45 then json.tail else json)
  let rest ← skipFracPart rest
  skipExpPart rest

/-- `skip_flat_json_value`. -/
def skipFlatJsonValue (json : Bytes) : Option Bytes :=
  match skipJsonWs json with
  | [] => none
  | c :: rest =>
      if c = 34 then (parseJsonString (c :: rest)).map Prod.snd
      else
        (consumeJsonLiteral (c :: rest) (ascii "true")).or
          ((consumeJsonLiteral (c :: rest) (ascii "false")).or
            ((consumeJsonLiteral (c :: rest) (ascii "null")).or (skipJsonNumber (c :: rest))))

end ControlProtocol
end ContextFS
