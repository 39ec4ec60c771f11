import Warp.Infra.Ordering

/-!
# JSON values

`dumps` follows `json.dumps(value, sort_keys=True, separators=(",", ":"))` with ASCII output.
-/

namespace Warp

inductive Json where
  | null
  | bool (b : Bool)
  | int (n : ℤ)
  | str (s : String)
  | arr (items : List Json)
  | obj (fields : List (String × Json))

namespace Json

/-! ## Strings -/

def hexDigit (n : ℕ) : Char := "0123456789abcdef".toList.getD n '0'

/-- `\uXXXX` -/
def unicodeEscape (n : ℕ) : String :=
  "\\u" ++ String.ofList
    [hexDigit (n / 4096 % 16), hexDigit (n / 256 % 16), hexDigit (n / 16 % 16), hexDigit (n % 16)]

def escapeChar (c : Char) : String :=
  if c = '"' then "\\\""
  else if c = '\\' then "\\\\"
  else if c = '\n' then "\\n"
  else if c = '\r' then "\\r"
  else if c = '\t' then "\\t"
  else if c.toNat = 8 then "\\b"
  else if c.toNat = 12 then "\\f"
  else if 32 ≤ c.toNat ∧ c.toNat ≤ 126 then c.toString
  else if c.toNat < 65536 then unicodeEscape c.toNat
  else
    -- outside the basic plane: a surrogate pair
    unicodeEscape (55296 + (c.toNat - 65536) / 1024)
      ++ unicodeEscape (56320 + (c.toNat - 65536) % 1024)

def quote (s : String) : String := "\"" ++ String.join (s.toList.map escapeChar) ++ "\""

/-! ## Values -/

def sortFields (fields : List (String × String)) : List (String × String) :=
  Infra.orderBy Prod.fst fields

mutual

def dumps : Json → String
  | null => "null"
  | bool b => if b then "true" else "false"
  | int n => toString n
  | str s => quote s
  | arr items => "[" ++ ",".intercalate (dumpsItems items) ++ "]"
  | obj fields =>
    "\x7b" ++ ",".intercalate ((sortFields (dumpsFields fields)).map
      (fun p => quote p.1 ++ ":" ++ p.2)) ++ "\x7d"

def dumpsItems : List Json → List String
  | [] => []
  | v :: rest => dumps v :: dumpsItems rest

def dumpsFields : List (String × Json) → List (String × String)
  | [] => []
  | (k, v) :: rest => (k, dumps v) :: dumpsFields rest

end

/-! ## Removing a key -/

mutual

/-- The value without the fields of one name, at any depth. -/
def without (name : String) : Json → Json
  | null => null
  | bool b => bool b
  | int n => int n
  | str s => str s
  | arr items => arr (withoutItems name items)
  | obj fields => obj (withoutFields name fields)

def withoutItems (name : String) : List Json → List Json
  | [] => []
  | v :: rest => without name v :: withoutItems name rest

def withoutFields (name : String) : List (String × Json) → List (String × Json)
  | [] => []
  | (k, v) :: rest =>
    if k = name then withoutFields name rest
    else (k, without name v) :: withoutFields name rest

end

example : dumps (obj [("b", arr [int (-1), null]), ("a", str "x\ny")]) =
    "\x7b\"a\":\"x\\ny\",\"b\":[-1,null]\x7d" := by decide

end Json

end Warp
