import FeltRelay.Network.Host
import FeltRelay.Network.Host.Number
import FeltRelay.Text.Case
import FeltRelay.Text.Literal
import FeltRelay.Text.Utf8

/-!
# Addresses on the wire

An address as it is written by people may hold characters that do not travel. Each part has its own
set of such characters; they are sent as `%XX` for each of their bytes. Steps to the same or the
upper directory are taken, scheme and host are written small, and the usual port of a scheme is
dropped. An address without scheme or host is sent as path and query alone. An address with a
control character cannot be used, nor one with a port that is no number or a host that is neither a
name nor a numeric address.
-/

namespace FeltRelay.Network

open FeltRelay.Text

structure Url where
  scheme : List Char
  user : List Char
  host : List Char
  port : Option Int
  path : List Char
  /-- With the question mark in front, if there is a query. -/
  query : List Char
  /-- With the number sign in front, if there is a fragment. -/
  fragment : List Char
deriving DecidableEq, Repr

namespace Url

/-! ### Characters -/

def isControl (c : Char) : Bool := c.toNat < 32 || c.toNat = 127

/-- A character of printable ASCII other than those that travel in no part and some more. -/
def travels (more : List Char) (c : Char) : Bool :=
  32 < c.toNat && c.toNat < 127 && !(['"', '<', '>'].contains c) && !more.contains c

def inUser : Char → Bool := travels "#?\x60\x7b\x7d/;=@[\\]^|".toList
def inPath : Char → Bool := travels "#?\x60\x7b\x7d".toList
def inQuery : Char → Bool := travels ['#']
def inFragment : Char → Bool := travels ['\x60']

/-- Hosts hold letters, digits and most marks. -/
def inHost (c : Char) : Bool :=
  c.isAlphanum || "-._~!$&'()*+,;=\"\x60\x7b\x7d%|\\".toList.contains c

/-- A character by its bytes. -/
def escape (c : Char) : List Char :=
  (Utf8.encodeChar c).flatMap fun b =>
    '%' :: (padLeft 2 '0' (inBase 16 b.toNat)).map Char.toUpper

/-- A part with the characters escaped that do not travel in it. -/
def escaped (travels : Char → Bool) (s : List Char) : List Char :=
  s.flatMap fun c => if travels c then [c] else escape c

def small (s : List Char) : List Char := (lower (String.ofList s)).toList

/-! ### Paths -/

/-- Takes the steps to the same and to the upper directory. -/
def walk : List (List Char) → List (List Char) → List (List Char)
  | done, [] => done
  | done, part :: rest =>
    if part = ['.'] then walk done rest
    else if part = ['.', '.'] then
      walk (if done = [] ∨ done = [[]] then done else done.dropLast) rest
    else walk (done ++ [part]) rest

/-- A path without such steps. -/
def direct (path : List Char) : List Char :=
  let parts := path.splitOnP (· = '/')
  if parts.contains ['.'] || parts.contains ['.', '.'] then
    List.intercalate ['/'] (walk [] parts)
  else path

/-! ### Hosts and ports -/

/-- A host as it is sent. An address in brackets loses them here. -/
def host? (s : List Char) : Option (List Char) :=
  if Host.isQuad s then (if Host.isFourBytes s then some s else none)
  else if s.head? = some '[' ∧ s.getLast? = some ']' then
    let address := (s.drop 1).dropLast
    if Host.isEightGroups address then some address else none
  else if s.all (·.toNat < 128) then some (escaped inHost (small s))
  else Host.encode? (small s)

/-- The usual ports of schemes. -/
def usualPorts : List (String × Int) :=
  [("ftp", 21), ("http", 80), ("https", 443), ("ws", 80), ("wss", 443)]

/-- A port as it is sent, behind a scheme as it is written: the usual one is known by the scheme in
small letters only. -/
def port? (scheme s : List Char) : Option (Option Int) :=
  if s.isEmpty then some none
  else (decimal? (String.ofList s)).map fun n =>
    if usualPorts.lookup (String.ofList scheme) = some n then none else some n

/-- The end of a text from the last place on where a character stands; all of it, if there is
none. -/
def afterLast (c : Char) (s : List Char) : List Char := (s.reverse.takeWhile (· ≠ c)).reverse

/-- The host in front of a text, in brackets or up to a colon. -/
def hostOf (s : List Char) : List Char :=
  if s.head? = some '[' ∧ s.contains ']' then s.take (s.length - (afterLast ']' s).length)
  else s.takeWhile (· ≠ ':')

/-! ### Reading and writing -/

/-- The longest address that is used. -/
def maxLength : Nat := 65536

/-- A scheme, perhaps empty, that a colon follows, and what comes after it. -/
def scheme? (s : List Char) : Option (List Char × List Char) :=
  let scheme := s.takeWhile fun c => c.isAlphanum || ['+', '.', '-'].contains c
  match s.drop scheme.length with
  | ':' :: rest =>
    if (scheme.head?.map Char.isAlpha).getD true then some (scheme, rest) else none
  | _ => none

/-- An address by its parts, each as it is sent. -/
def read? (text : String) : Option Url := do
  let s := text.toList
  if maxLength < s.length || s.any isControl then none
  else
    let (scheme, s) := (scheme? s).getD ([], s)
    let (authority, s) := match s with
      | '/' :: '/' :: rest => (rest.takeWhile fun c => !(['/', '?', '#'].contains c),
        rest.dropWhile fun c => !(['/', '?', '#'].contains c))
      | s => ([], s)
    let path := s.takeWhile fun c => !(['?', '#'].contains c)
    let s := s.drop path.length
    let query := s.takeWhile (· ≠ '#')
    let fragment := s.drop query.length
    let rest := afterLast '@' authority
    let user := (authority.take (authority.length - rest.length)).dropLast
    let host := hostOf rest
    let after := rest.drop host.length
    let port ← port? scheme (if after.head? = some ':' then after.drop 1 else after)
    let host ← host? host
    let placeless := scheme = [] ∧ user = [] ∧ host = [] ∧ port = none
    if placeless ∧ (['/', '/'].isPrefixOf path ∨ path.head? = some ':') then none
    else
      some ⟨small scheme, escaped inUser user, host, port,
        escaped inPath (if placeless then path else direct path),
        query.take 1 ++ escaped inQuery (query.drop 1),
        fragment.take 1 ++ escaped inFragment (fragment.drop 1)⟩

/-- Whether an address says where to go, not only what to ask for. -/
def isPlaced (u : Url) : Bool := !u.scheme.isEmpty && !u.host.isEmpty

def sent (u : Url) : String :=
  String.ofList <|
    if !u.isPlaced then '/' :: u.path.dropWhile (· = '/') ++ u.query
    else
      let user := if u.user.isEmpty then [] else u.user ++ ['@']
      let host := if u.host.contains ':' then '[' :: u.host ++ [']'] else u.host
      let port := match u.port with
        | some n => ':' :: (integer n).toList
        | none => []
      u.scheme ++ ':' :: '/' :: '/' :: user ++ host ++ port ++ u.path ++ u.query ++ u.fragment

/-- The address that is sent; nothing if it cannot be used. -/
def onWire? (text : String) : Option String := (read? text).map sent

example : onWire? "http://h/status/é x" = some "http://h/status/%C3%A9%20x" := by decide +kernel
example : onWire? "http://H:80/a/../b" = some "http://h/b" := by decide +kernel
example : onWire? "HTTP://h:80/" = some "http://h:80/" := by decide +kernel
example : onWire? "http://u:p@[::1]:81/?a b#c" = some "http://u:p@[::1]:81/?a%20b#c" := by
  decide +kernel
example : onWire? "http:/p" = some "/p" := by decide +kernel
example : onWire? "http://h:x/a" = none := by decide +kernel
example : onWire? "http://1.2.3.400/a" = none := by decide +kernel

end Url

end FeltRelay.Network
