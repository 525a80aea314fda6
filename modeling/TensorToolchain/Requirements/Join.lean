import TensorToolchain.Keyed
import TensorToolchain.Value

/-!
# Required packages

A constraint is one character followed by a version; it admits all later versions up to the next
change of the first number that is not zero. Packages are required piece by piece, and constraints
on their versions stand in a list of their own. The checks collect what is wrong with either.
-/

namespace TensorToolchain.Requirements

open Text

/-- A number as it stands in a version: zero, or digits that do not start with zero; the digits
after the first may be of any script. -/
def isVersionNumber : List Char → Bool
  | [] => false
  | ['0'] => true
  | c :: rest => '1' ≤ c && c ≤ '9' && rest.all fun d => (decimalValue? d).isSome

def isMarkLetter (c : Char) : Bool := c.isAlpha || c == '-'

def isMarkChar (c : Char) : Bool := c.isAlphanum || c == '-'

/-- A part of the mark of a release to come: a number, or text that is not only digits. -/
def isReleasePart (part : List Char) : Bool :=
  isVersionNumber part ||
    match part.dropWhile fun c => (decimalValue? c).isSome with
    | [] => false
    | c :: rest => isMarkLetter c && rest.all isMarkChar

def isBuildPart (part : List Char) : Bool := !part.isEmpty && part.all isMarkChar

/-- A version: its three numbers, and the marks that follow the patch number. -/
structure Version where
  (major minor patch : List Char)
  (release build : Option (List Char))

/-- Cut what follows the patch number into the mark of the release and the data about the build. -/
def cutMarks : List Char → Option (List Char) × Option (List Char)
  | '-' :: rest =>
    let (release, build) := cutBy (· == '+') rest
    (some release, build)
  | '+' :: rest => (none, some rest)
  | _ => (none, none)

/-- The version that a text spells; one line feed at the end is passed over. -/
def Version.parse? (text : List Char) : Option Version :=
  let body := if text.getLast? = some '\n' then text.dropLast else text
  match cutBy (· == '.') body with
  | (major, some rest) =>
    match cutBy (· == '.') rest with
    | (minor, some rest) =>
      let isMark := fun c => c == '-' || c == '+'
      let patch := rest.takeWhile (!isMark ·)
      let (release, build) := cutMarks (rest.dropWhile (!isMark ·))
      if [major, minor, patch].all isVersionNumber && (release.all fun r => (splitChar '.' r).all isReleasePart) &&
          (build.all fun b => (splitChar '.' b).all isBuildPart) then
        some { major, minor, patch, release, build }
      else none
    | _ => none
  | _ => none

variable (v : Version)

def Version.tail : List Char := v.patch ++ (v.release.map ('-' :: ·)).getD [] ++ (v.build.map ('+' :: ·)).getD []

def Version.parts : List String := [v.major, v.minor, v.tail].map .ofList

def versionNumber (digits : List Char) : Int := (readInt? digits).getD 0

/-- The part of a version that a range keeps, by its place, and the value of it. -/
def Version.fixedPart : Nat × Int :=
  if versionNumber v.major ≠ 0 then (0, versionNumber v.major)
  else if versionNumber v.minor ≠ 0 then (1, versionNumber v.minor)
  else if versionNumber v.patch ≠ 0 || v.tail ≠ v.patch then (2, versionNumber v.patch)
  else (0, 0)

def constraintVersion? (constraint : String) : Option Version := Version.parse? (constraint.toList.drop 1)

def constraintProblem (package constraint : String) : String := package ++ ": invalid semver constraint " ++ constraint

/-- The first parts that a range does not admit. -/
def Version.bound : List String :=
  let (place, value) := v.fixedPart
  v.parts.take place ++ toString (value + 1) :: (v.parts.drop (place + 1)).map fun _ => "0"

def Version.range (package : String) : String := package ++ ">=" ++ joined "." v.parts ++ ",<" ++ joined "." v.bound

def rangeOf (package constraint : String) : Result String :=
  match constraintVersion? constraint with
  | some v => .ok (v.range package)
  | none =>
    refuse .failedCheck ("should not happen: validated semver " ++ constraint ++
      " parses with problems:\n * " ++ constraintProblem package constraint)

def constraintReport (package constraint : String) : Report :=
  let (parts, place, value, problems) : List String × Nat × Int × List String :=
    match constraintVersion? constraint with
    | some v => (v.parts, v.fixedPart.1, v.fixedPart.2, [])
    | none => ([], 0, 0, [constraintProblem package constraint])
  .record [
    ("parts", toReport parts), ("index", toReport place), ("value", toReport value),
    ("problems", toReport problems)]

/-! ### Required packages -/

/-- The elements of a value that has some: the items of a list, the characters of a text, the names
of the fields of an object. -/
def elements : Json → Result (List Json)
  | .arr items => .ok items
  | .str s => .ok (s.toList.map fun c => .str (.ofList [c]))
  | .obj fields => .ok (fields.map (.str ·.1))
  | _ => fail .badType

def pairOf (j : Json) : Result (Json × Json) := do
  match ← elements j with
  | [a, b] => return (a, b)
  | _ => fail .badValue

def written (j : Json) : String := (Value.ofJson j).text

def ordered (xs : List String) : List String := xs.mergeSort fun a b => a ≤ b

def listText (xs : List String) : String := (Value.list (xs.map .str)).text

def startsConstraint (text : List Char) : Bool :=
  ["^", "<", "~=", "<=", "==", ">=", ">"].any fun op =>
    op.toList.isPrefixOf text &&
      match text.drop op.length with
      | [] => false
      | c :: _ => !"<>=^,".toList.contains c

def holdsConstraint : List Char → Bool
  | [] => false
  | c :: rest => startsConstraint (c :: rest) || holdsConstraint rest

/-! ### Pieces -/

/-- What was seen of the pieces before: their names, and whether the first and the last are
there. -/
structure Seen where
  names : List String := []
  core : Bool := false
  dev : Bool := false

def placeProblems (seen : Seen) (piece : String) : List String × Seen :=
  let lower := lowerCase piece
  let twice := if seen.names.contains lower then ["piece " ++ piece ++ ": listed twice"] else []
  let early :=
    if !seen.core && piece != "core" then
      ["piece " ++ piece ++ ": must list after \"core\" (core must be first)"]
    else []
  let late := if seen.dev then ["piece " ++ piece ++ ": must list before \"dev\" (dev must be last)"] else []
  (twice ++ early ++ late,
    { names := lower :: seen.names, core := seen.core || piece == "core",
      dev := seen.dev || piece == "dev" })

def packageProblems (piece : String) (seen : List String) : List String → List String
  | [] => []
  | d :: rest =>
    let version :=
      if holdsConstraint d.toList then
        ["piece " ++ piece ++ ": dependency " ++ d ++ " should not specify a version. " ++
          "Add it to CONSTRAINTS instead."]
      else []
    let twice :=
      if seen.contains (lowerCase d) then
        ["piece " ++ piece ++ ": dependency " ++ d ++ " listed twice"]
      else []
    version ++ twice ++ packageProblems piece (lowerCase d :: seen) rest

def strings? : Json → Option (List String)
  | .arr items => items.mapM Json.string?
  | _ => none

def contentProblems (piece : String) (value : Json) : List String :=
  match value with
  | .arr [description, deps] =>
    let first :=
      match description with
      | .str _ => []
      | other => ["piece " ++ piece ++ ": description should be a string, got " ++ written other]
    match strings? deps with
    | none => first ++ ["piece " ++ piece ++ ": deps should be a list of strings, got " ++ written deps]
    | some packages =>
      let order :=
        if ordered packages != packages then
          ["piece " ++ piece ++ ": deps must be sorted. Correct order:\n  " ++ listText (ordered packages)]
        else []
      first ++ order ++ packageProblems piece [] packages
  | other =>
    ["piece " ++ piece ++ ": should be formatted like (\"" ++ piece ++
      "\", (\"<requirements.txt comment>\", [\"dep1\", \"dep2\", ...])). got: " ++ written other]

def problemsFrom (seen : Seen) : List (Json × Json) → List String
  | [] => []
  | (.str piece, value) :: rest =>
    let (place, seen) := placeProblems seen piece
    place ++ contentProblems piece value ++ problemsFrom seen rest
  | (other, _) :: rest => ("piece " ++ written other ++ ": must be str") :: problemsFrom seen rest

def orderProblems (pieces : List (Json × Json)) : List String :=
  let extras := (pieces.filterMap (·.1.string?)).filter fun k => k != "dev" && k != "core"
  if ordered extras != extras then
    ["pieces other than \"core\" and \"dev\" must appear in alphabetical order: " ++ listText (ordered extras)]
  else []

def pieceProblems (pieces : Json) : Result (List String) :=
  match pieces with
  | .arr items => do
    let pairs ← items.mapM pairOf
    return problemsFrom {} pairs ++ orderProblems pairs
  | other => .ok ["must be list or tuple, see " ++ written other]

/-! ### Constraints -/

def lowerName : Json → Result String
  | .str s => .ok (lowerCase s)
  | _ => fail .missingAttribute

def allPackages (pieces : Json) : Result (List String) := do
  let packages ← (← elements pieces).mapM fun piece => do
    let (_, value) ← pairOf piece
    let (_, deps) ← pairOf value
    (← elements deps).mapM lowerName
  return packages.flatten

def textProblems (package constraint : String) : List String :=
  let form :=
    if startsConstraint constraint.toList then []
    else [package ++ ": constraint \"" ++ constraint ++ "\" does not look like a valid constraint"]
  let version :=
    if startsWith "^" constraint && (constraintVersion? constraint).isNone then
      [constraintProblem package constraint]
    else []
  form ++ version

/-- Problems with a constraint, given the packages that were constrained before and all packages. -/
def constraintProblems (seen all : List String) (constraint : Json × Json) : Result (String × List String) := do
  match constraint.1 with
  | .arr _ | .obj _ => fail .badType
  | .str package =>
    let twice := if seen.contains package then [package ++ ": specified twice"] else []
    let unknown :=
      if all.contains (lowerCase package) then []
      else [package ++ ": not specified in REQUIREMENTS_BY_PIECE"]
    match constraint.2 with
    | .null => return (package, twice ++ unknown)
    | .str text => return (package, twice ++ unknown ++ textProblems package text)
    | _ => fail .badType
  | _ => fail .missingAttribute

def constraintsFrom (seen all : List String) : List Json → Result (List String × List String)
  | [] => .ok ([], [])
  | c :: rest => do
    let (package, problems) ← constraintProblems seen all (← pairOf c)
    let (packages, later) ← constraintsFrom (package :: seen) all rest
    return (package :: packages, problems ++ later)

def allConstraintProblems (pieces constraints : Json) : Result (List String) := do
  let form :=
    match constraints with
    | .arr _ => []
    | other => ["must be list or tuple, see: " ++ written other]
  let all ← allPackages pieces
  let (packages, problems) ← constraintsFrom [] all (← elements constraints)
  let order :=
    if ordered packages != packages then
      ["CONSTRAINTS entries should be in this sorted order: " ++ listText (ordered packages)]
    else []
  return form ++ problems ++ order

/-! ### Pieces joined with their constraints

Pieces and constraints that pass the checks give the requirements of each piece, and of all pieces
but the last together.
-/

def problemWidth : Nat := 80

def bullet : String := " * "

/-- A problem as lines: the first after a bullet, the others below its text. -/
def problemText (config problem : String) : String :=
  let lines := wrap (problemWidth - bullet.length) (config ++ ": " ++ problem).toList
  joined "\n" (lines.mapIdx fun i line => (if i = 0 then bullet else "   ") ++ .ofList line)

def problemsText (config : String) (problems : List String) : String := joined "\n" (problems.map (problemText config))

def problemsTextOf (config : String) (problems : List Json) : Result String := do
  let texts ← problems.mapM fun p =>
    match p with
    | .str s => .ok s
    | other => refuse .failedCheck ("problems element not a str: " ++ (Value.ofJson other).display)
  return problemsText config texts

def refuseProblems (config : String) (problems : List String) : Result Unit :=
  require problems.isEmpty .invalidRequest (problemsText config problems)

structure Piece where
  name : String
  description : Json
  packages : List String

def Piece.ofJson (j : Json) : Result Piece := do
  let (name, value) ← pairOf j
  let (description, deps) ← pairOf value
  return { name := name.text, description, packages := (strings? deps).getD [] }

def requirementOf (constraints : Keyed String Json) (package : String) : Result String :=
  match constraints.get? (lowerCase package) with
  | some (.str constraint) =>
    if startsWith "^" constraint then rangeOf package constraint else .ok (package ++ constraint)
  | _ => .ok package

def combinedName : String := "all-prod"

def joinedRequirements (pieces constraints : Json) : Result (Keyed String (Json × List String)) := do
  refuseProblems "REQUIREMENTS_BY_PIECE" (← pieceProblems pieces)
  refuseProblems "CONSTRAINTS" (← allConstraintProblems pieces constraints)
  let bounds ← (← elements constraints).mapM fun c => do
    let (package, constraint) ← pairOf c
    .ok (lowerCase package.text, constraint)
  let table := .ofList bounds
  let joined ← (← elements pieces).mapM fun j => do
    let piece ← Piece.ofJson j
    .ok { piece with packages := ← piece.packages.mapM (requirementOf table) }
  let combined := ((joined.filter (·.name != "dev")).flatMap Piece.packages).eraseDups
  let all := Keyed.ofList (joined.map fun p => (p.name, p.description, p.packages))
  return all.set combinedName (.str "Combined dependencies for all TVM pieces, excluding dev", ordered combined)

def actionReport (action : String) (pieces constraints : Json) : Result Report := do
  match action with
  | "validate_pieces" => return toReport (← pieceProblems pieces)
  | "validate_constraints" => return toReport (← allConstraintProblems pieces constraints)
  | _ => return toReport (← joinedRequirements pieces constraints).entries

end TensorToolchain.Requirements
