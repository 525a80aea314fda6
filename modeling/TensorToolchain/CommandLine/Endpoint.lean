import TensorToolchain.Text

/-!
# Hosts and ports

The host and the port number of a tracker, from the text of an address. An address of version six
stands in brackets.
-/

namespace TensorToolchain.CommandLine

open Text

def trackerPort : Nat := 9090

variable (text : List Char)

/-- Whether a text is a number from 0 to 255 without a zero in front. -/
def isOctet : Bool :=
  text.length ≤ 3 && !text.isEmpty && text.all Char.isDigit &&
    (text.length == 1 || text.head? != some '0') && Number.ofDigits text ≤ 255

def isAddress4 : Bool :=
  let octets := splitChar '.' text
  octets.length == 4 && octets.all isOctet

def isGroup : Bool := !text.isEmpty && text.length ≤ 4 && text.all fun c => (Number.hexDigit? c).isSome

/-- Whether groups make an address of version six: eight of them, or fewer with one gap. -/
def areGroups (groups : List (List Char)) : Bool :=
  let inner := (groups.drop 1).dropLast
  let gaps := inner.filter List.isEmpty
  if groups.length < 3 || 9 < groups.length || 1 < gaps.length then false
  else if gaps.length == 1 then
    let before := (groups.drop 1).findIdx List.isEmpty + 1
    let after := groups.length - before - 1
    let openStart := groups.head? == some []
    let openEnd := groups.getLast? == some []
    let before := if openStart then before - 1 else before
    let after := if openEnd then after - 1 else after
    (!openStart || before == 0) && (!openEnd || after == 0) && before + after < 8 &&
      (groups.filter fun g => !g.isEmpty).all isGroup
  else groups.length == 8 && groups.all isGroup

def isAddress6 : Bool :=
  let (address, zone) := cutBy (· == '%') text
  let zoneFits := zone.all fun z => !z.isEmpty && !z.contains '%'
  let groups := splitChar ':' address
  let last := groups.getLast?.getD []
  let groups := if last.contains '.' then groups.dropLast ++ [['0'], ['0']] else groups
  zoneFits && (!last.contains '.' || isAddress4 last) && 3 ≤ (splitChar ':' address).length && areGroups groups

def isLaterAddress : Bool :=
  match text with
  | 'v' :: rest =>
    let (version, address) := cutBy (· == '.') rest
    !version.isEmpty && version.all (fun c => (Number.hexDigit? c).isSome) &&
      address.any fun a => !a.isEmpty && !a.contains '\n'
  | _ => false

def isBracketed : Bool := if text.head? == some 'v' then isLaterAddress text else isAddress6 text

def authority : List Char :=
  (text.filter fun c => c != '\t' && c != '\r' && c != '\n').takeWhile fun c => c != '/' && c != '?' && c != '#'

def afterLast (sep : Char) (text : List Char) : List Char := (text.reverse.takeWhile (· != sep)).reverse

def hostAndPort : List Char × Option (List Char) :=
  let info := afterLast '@' text
  let (host, port) :=
    match cutBy (· == '[') info with
    | (_, some bracketed) =>
      let (host, rest) := cutBy (· == ']') bracketed
      (host, (cutBy (· == ':') (rest.getD [])).2)
    | (_, none) => cutBy (· == ':') info
  (host, port.filter fun p => !p.isEmpty)

def hostName (host : List Char) : Option String :=
  let name := host.takeWhile (· != '%')
  let zone := host.drop name.length
  if host.isEmpty then none else some (lowerCase (.ofList name) ++ .ofList zone)

def portNumber (port : List Char) : Result Nat := do
  demand (port.all Char.isDigit) .badValue
  let n := Number.ofDigits port
  demand (n ≤ 65535) .badValue
  return n

/-- The host and the port number of an address; nothing for an empty one. -/
def parseEndpoint (text : String) : Result (Option String × Option Nat) := do
  if text.isEmpty then return (none, none)
  else
    let place := authority text.toList
    demand (place.contains '[' == place.contains ']') .badValue
    if place.contains '[' then
      let inside := ((cutBy (· == '[') place).2.getD [])
      demand (isBracketed (cutBy (· == ']') inside).1) .badValue
    let (host, port) := hostAndPort place
    let port ←
      match port with
      | some p => portNumber p
      | none => pure 0
    return (hostName host, some (if port == 0 then trackerPort else port))

end TensorToolchain.CommandLine
