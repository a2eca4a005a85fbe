import FeltRelay.Network.Url

/-!
# Credentials

An address may name a user, with a password after a colon. Whoever they are for finds them in a
header: both with a colon between them, in Base64.

Base64 writes bytes as text: three bytes are four digits of six bits each. One or two bytes at the
end are filled up with zero bits, and the digits that hold none of their bits are written `=`.
-/

namespace FeltRelay.Text.Base64

def digit (n : Nat) : Char :=
  if n < 26 then Char.ofNat (65 + n)
  else if n < 52 then Char.ofNat (71 + n)
  else if n < 62 then Char.ofNat (n - 4)
  else if n = 62 then '+'
  else '/'

/-- The first `count` of the four digits of 24 bits. -/
def digits (count n : Nat) : List Char :=
  ([n / 0x40000, n / 0x1000, n / 0x40, n].take count).map fun m => digit (m % 0x40)

def encode : List UInt8 → List Char
  | [] => []
  | [a] => digits 2 (a.toNat * 0x10000) ++ ['=', '=']
  | [a, b] => digits 3 (a.toNat * 0x10000 + b.toNat * 0x100) ++ ['=']
  | a :: b :: c :: rest =>
    digits 4 (a.toNat * 0x10000 + b.toNat * 0x100 + c.toNat) ++ encode rest

example : String.ofList (encode [109, 97, 110]) = "bWFu" := by decide
example : String.ofList (encode [109, 97]) = "bWE=" := by decide
example : String.ofList (encode [251, 255, 254, 0]) = "+//+AA==" := by decide

/-- Every three bytes that are begun take four characters. -/
theorem length_encode (bytes : List UInt8) :
    (encode bytes).length = 4 * ((bytes.length + 2) / 3) := by
  fun_induction encode bytes with
  | case1 => rfl
  | case2 => simp [digits]
  | case3 => simp [digits]
  | case4 a b c rest ih =>
    simp only [digits, List.length_append, List.length_map, List.length_take, List.length_cons,
      List.length_nil, ih]
    omega

end FeltRelay.Text.Base64

namespace FeltRelay.Network

open FeltRelay.Text

def escapedByte? : List Char → Option UInt8
  | h :: l :: _ => do return .ofNat (16 * (← digitIn? 16 h) + (← digitIn? 16 l))
  | _ => none

/-- The bytes that a part of an address stands for: each `%XX` is one byte. The first `skip`
characters belong to an escape that was read. -/
def unescaped : (skip : Nat) → List Char → List UInt8
  | _, [] => []
  | skip + 1, _ :: rest => unescaped skip rest
  | 0, c :: rest =>
    match if c = '%' then escapedByte? rest else none with
    | some b => b :: unescaped 2 rest
    | none => Utf8.encodeChar c ++ unescaped 0 rest

/-- A part of an address as a text. -/
def plain (s : List Char) : String := Utf8.decodeLossy (unescaped 0 s)

/-- Who asks, in the words of a header; nothing if the address names nobody, or no place. -/
def Url.authorization? (u : Url) : Option String :=
  let name := plain (u.user.takeWhile (· ≠ ':'))
  let password := plain ((u.user.dropWhile (· ≠ ':')).drop 1)
  if !u.isPlaced || name.isEmpty && password.isEmpty then none
  else some ("Basic " ++ String.ofList (Base64.encode (Utf8.encode (name ++ ":" ++ password))))

example : (Url.read? "http://me:a%40b@h/").bind Url.authorization? = some "Basic bWU6YUBi" := by
  decide +kernel
example : (Url.read? "http://h/").bind Url.authorization? = none := by decide +kernel

end FeltRelay.Network
