import FeltRelay.Entries
import FeltRelay.Json.Reader
import FeltRelay.Network.Url

/-!
# Requests and replies

A request names its address, its headers, perhaps a JSON body, and how long to wait. A reply is what
a server answered, or how the exchange ended without an answer.
-/

namespace FeltRelay.Network

open FeltRelay.Text

inductive Method where
  | get | post
deriving DecidableEq, Repr

def Method.name : Method → String
  | get => "GET"
  | post => "POST"

abbrev Headers := List (String × String)

structure Request where
  method : Method
  url : Url
  body : Option Json
  headers : Headers
  /-- How many seconds to wait. -/
  timeout : Float

inductive Reply where
  | answered (status : Int) (body : List UInt8)
  | timedOut
  /-- No connection, or a broken one. -/
  | disconnected (text : String)
  /-- The exchange did not keep to the protocol. -/
  | misled (text : String)
  /-- The address cannot be used. -/
  | unusableUrl
deriving Inhabited

/-- Adds a header to those of the same source: values of one name are joined. -/
def addHeader (h : Headers) (e : String × String) : Headers :=
  let name := lower e.1
  match h.lookup name with
  | some v => Entries.put name (v ++ ", " ++ e.2) h
  | none => h ++ [(name, e.2)]

/-- The headers of one source, names written small. -/
def ownHeaders (h : Headers) : Headers := h.foldl addHeader []

/-- The headers of a source with those of another one written over them. -/
def overlay (base top : Headers) : Headers :=
  let top := ownHeaders top
  (ownHeaders base).filter (fun e => !Entries.has e.1 top) ++ top

/-- The headers of a request: those that every request has, those of the server, and the type of the
body, if there is one and no other type is given. -/
def requestHeaders (base top : Headers) (hasBody : Bool) : Headers :=
  let h := overlay base top
  if hasBody then Entries.putNew "content-type" "application/json" h else h

/-- Whether a status tells success. -/
def isSuccess (status : Int) : Bool := 200 ≤ status && status < 300

/-- The text of a body. A byte order mark in front tells how it is laid out. Without one the bytes
tell that are zero, as JSON text begins with ASCII characters. -/
def bodyText? (body : List UInt8) : Option String :=
  match body with
  | 0 :: 0 :: 0xFE :: 0xFF :: rest => Units.decode32? .highFirst rest
  | 0xFF :: 0xFE :: 0 :: 0 :: rest => Units.decode32? .lowFirst rest
  | 0xFE :: 0xFF :: rest => Units.decode16? .highFirst rest
  | 0xFF :: 0xFE :: rest => Units.decode16? .lowFirst rest
  | 0xEF :: 0xBB :: 0xBF :: rest => Utf8.decode? rest
  | a :: b :: rest =>
    if rest.length = 1 then Utf8.decode? body
    else if a = 0 then
      if rest.isEmpty || b ≠ 0 then Units.decode16? .highFirst body
      else Units.decode32? .highFirst body
    else if b = 0 then
      if rest.isEmpty || (rest.take 2).any (· ≠ 0) then Units.decode16? .lowFirst body
      else Units.decode32? .lowFirst body
    else Utf8.decode? body
  | _ => Utf8.decode? body

def bodyValue? (body : List UInt8) : Option Json := (bodyText? body).bind Json.read?

end FeltRelay.Network
