import TensorToolchain.Json.Printer

/-!
# Texts

Functions on lists of characters, and their forms on `String`: classes of characters, cutting and
joining, letter case, and the reading and quoting of texts.
-/

namespace TensorToolchain.Text

open List Text

/-! ### Letters and printable characters

Two classes of code points of all scripts. A class is given by the lengths of its runs: of the code
points before its first member, of its first members, of those between them and the next members,
and so on. Letters and digits are told apart from printable characters only, and their runs go on
over other code points.
-/

/-- The numbers that a text stands for, blanks aside. Each ends with a digit in base 36, and small
letters before it are digits in base 26. -/
def runLengths (text : String) : List Nat :=
  ((text.toList.filter (·.isAlphanum)).foldl (fun (runs, high) c =>
    if c.isLower then (runs, 26 * high + (c.toNat - 97))
    else ((36 * high + if c.isDigit then c.toNat - 48 else c.toNat - 55) :: runs, 0)) ([], 0)).1.reverse

def letterRuns : List Nat := runLengths
  "eQ1721132131N1V1mQ4CE57111dL51815211d21dV8fS6b5bZZb9b7LA421cR11F27F21G11UTcHBbM92433M419131NP7b41F8b6bMbI
    31I17A4A1G4bJ11G9564C26218bJTN23GbJ11II4A91BbJ11U64A1H1bNI7FDIbJ11QA4H17114bJ11V54Q4bJ21G1531A4J174bXSCFbC
    12C79Ab3bC129B8bDVKCbDN5d7b7KB66443132734DC11A6cJ1qXCb3GcO1r82b85c33b0DJEIEIEbGZ1413WGd92Y1dAb2e8YN9bHb7W7
    1cLbBHLb5UDbKQb0SbQ2bSb5416123fIbSmD113B3D3D5Bd7A5B6GcQ1412A1135611111141B2455411bMu6bOc6MrIUbfGgD6437412d
    4GcOc71n13P975254cG431cI1e424AWbCGWAU81FWAb3FiWhb4bSxrKbSbA2hH3cNGV2c8b392cV2dB13141ND6AbGEbESGI631121b2AN
    PW4bBSF251bVN3184C4N313bE113225211S2B73CcI1E6d7Dvr21A1dSXk3IdJXCd8e1FA7Q6QBdEWh47bC9bLH2gScO1e5AV1bC1lI1uN
    1V2eM1VbTdLFb48GGV1c01S65GbL7cHGkJCkJ5e6B4RIbAc83bHQU122A4b9WbC3b0FA412b83A3bCE4BB114c3cCb57bBHG5bI21I765e
    EbHI45A5c9K21gGb54b0bCKSWb7D17cLJC4gKd8e0F111EdLG111S1Ab471L1BbAJ1IkNH1FW2Wd2bDL19bMEjNf9b1b7bfKGddDFpzI2d
    KGbCG4CxBcXc711bUc711SuySgcCWcOy11P1V1P1V1P1V1P1V1P1bObxSh4h4bC7OiXUIb84FbiPgObCbW7JvVbN131dH1mHoODczFbgjp
    C"

/-- The runs of the characters that have a visible form, and of the plain blank. -/
def printableRuns : List Nat := runLengths
  "WcNYC1tU2647111K1l11b22bE231bJ8R46HM1fC1bC2bN2cTEbN2bD2F1S211B5V9c21eH18222M1711342922248142152P2316422M1
    7121212211542233174117HA319131M1712152A131321F42C771318222M1712152922237342152IA216331432111232333C4533142
    161EL5D131N1G291314721321242A7M131N1A152913147262142A12DD131bF13164G2Q131I3O191127314611186A23CbM4Tb121115
    1O111N2511162A24Wc01b04b31b01F1Db1fI11512kH142711142b5142X142711142F1bL142bV2W3Q6cE262rS1S3cH7M9O9KCD1312C
    cM2A6A6E1B6cH7b75bYAV1C4C413b625Bb84Q6B3bQ2bT1T2B6A6E2VbDc53bB1d88bO3F3bO7b72B8b75oU262b226281111111V2bH1F
    1E261J2319HO8bBH22R1D3XFXFdW4sFPBLbyC2W1jP5b911512bK72EO97171717171717171dIYQ1cHCfYQC5bR1cE2cV5b71cM1cCCbB
    1bfhP3bJ9jOKf48fN521115ObN3A6bK8bY8C6d8BU3c61B4X1bJ9E2A2cVOSA6262697171bO4dI2A6lyCCN4bDjaSk62cYb27C55Q1511
    12121dHGmD2bI71Wb66bF1J14451dR4fA362626233717D22C1Q1J121F2EYdF534b93cG1D31bBbAdMT3bDFS4b09U5b75U1b14Eb6eE2
    A6b04b04b48bGBC1F17121B1F1712bViN9MA8O61b619bX6211b812312N1c089bCJ125X3R51bSbK4K2bE1258131T234A797bSWb34C9
    bI3T2R5Q74C7c8c1bJbFDbF7bA8Ai6V1b61322c6b48b6MQb2SKN9c64b09bQ15DP7A6bH1I8b39cO1KBI1b8bT711141F1B6bN5A64182
    22M1712151A22232161572735dVcK15Uc08AeMbI2b2YbXBA6DJbM6AbIR2F4Nf5bOcScBC82128121U122C9AbY82bA2BRc08cBDc1hB9
    1b91EAT3W2M1Ec17121b83112198A66121b112167AiMPf31FbEDzNcUd315BfGcv8cRDbdReiHq7jfTpT7V1A4c91A6U26AbYAA171L5J
    t4cJcTc34bL7HbS5B2EgoG8biEb69jo7417121i3b93H48l0cm4cZ5D397A24faObA2N9d8bOgUAb32c28d4LbYeAKCcF9PdRcD1bZ1221
    22241C11171bT1428171S141511371jG2i42tIF51FbeOVg971H271215fXb93E2A42iWVHbM51biO714121F1fH2Gb5c44A42vTbWc4bP
    fE41R1211211A141111614111111312112111111111121124171414111A1H53151HbG2hIb84cSCF2F1F1b1AeUbKTDb84972E6eAbbC
    5G3D3d8CcH7C41FC4bK8A6b48U22c6jGCE2535379T3B56AA68879e31bJb1AbcMbtqOWelD7g62ge2EhzLdi7p2bpUfh7bdleTgO"

def inRanges (ranges : Array (Nat × Nat)) (n : Nat) : Bool := ranges.any fun (lo, hi) => lo ≤ n && n ≤ hi

/-- Whether a code point belongs to a class that is given by its runs, the first of them inside it
or not. -/
def inRuns (inside : Bool) : List Nat → Nat → Bool
  | [], _ => false
  | length :: rest, n => if n < length then inside else inRuns (!inside) rest (n - length)

def blankRanges : Array (Nat × Nat) := #[
  (0x9,0xD), (0x1C,0x20), (0x85,0x85), (0xA0,0xA0), (0x1680,0x1680), (0x2000,0x200A), (0x2028,0x2029),
  (0x202F,0x202F), (0x205F,0x205F), (0x3000,0x3000)]

def isBlank (c : Char) : Bool := inRanges blankRanges c.toNat

/-- A character with a visible form, or the plain blank. -/
def isPrintable (c : Char) : Bool := if c.toNat < 0x7F then 0x20 ≤ c.toNat else inRuns false printableRuns c.toNat

def isLetterOrDigit (c : Char) : Bool :=
  if c.toNat < 0x80 then c.isAlphanum else isPrintable c && inRuns false letterRuns c.toNat

def isWordChar (c : Char) : Bool := c == '_' || isLetterOrDigit c

def decimalZeros : List Nat := [
  48,1632,1776,1984,2406,2534,2662,2790,2918,3046,3174,3302,3430,3558,3664,3792,3872,4160,4240,6112,6160,6470,
  6608,6784,6800,6992,7088,7232,7248,42528,43216,43264,43472,43504,43600,44016,65296,66720,68912,69734,69872,
  69942,70096,70384,70736,70864,71248,71360,71472,71904,72016,72784,73040,73120,92768,92864,93008,120782,
  120792,120802,120812,120822,123200,123632,125264,130032]

def decimalValue? (c : Char) : Option Nat :=
  (decimalZeros.find? fun z => z ≤ c.toNat && c.toNat < z + 10).map (c.toNat - ·)

/-- Digits that are no decimal digits, such as those above and below the line or in circles. -/
def otherDigits : List Nat := runLengths "eY251fcV9btK1buT1366AbbA9B9B9cH1A911rI91919cjzX4bd89nL9cjlHB"

def isAnyDigit (c : Char) : Bool := (decimalValue? c).isSome || inRuns false otherDigits c.toNat

/-! ### Cutting and joining -/

/-- The pieces between the characters that satisfy a test; there is always at least one piece. -/
def splitBy (isCut : Char → Bool) : List Char → List (List Char)
  | [] => [[]]
  | c :: cs =>
    if isCut c then [] :: splitBy isCut cs
    else
      match splitBy isCut cs with
      | [] => [[c]]
      | p :: ps => (c :: p) :: ps

def splitChar (sep : Char) (text : List Char) : List (List Char) := splitBy (· == sep) text

variable (text : List Char)

def words : List (List Char) := (splitBy isBlank text).filter fun w => !w.isEmpty

def stripLeft (drop : Char → Bool) (text : List Char) : List Char := text.dropWhile drop

def stripRight (drop : Char → Bool) (text : List Char) : List Char := (text.reverse.dropWhile drop).reverse

def strip (drop : Char → Bool) (text : List Char) : List Char := stripRight drop (stripLeft drop text)

/-- Cut at the first character that satisfies a test: what stands before it, and what stands after
it if it occurs. -/
def cutBy (isCut : Char → Bool) : List Char → List Char × Option (List Char)
  | [] => ([], none)
  | c :: cs =>
    if isCut c then ([], some cs)
    else
      let r := cutBy isCut cs
      (c :: r.1, r.2)

def splitAtMost (sep : Char) : Nat → List Char → List (List Char)
  | 0, text => [text]
  | limit + 1, text =>
    match cutBy (· == sep) text with
    | (p, none) => [p]
    | (p, some rest) => p :: splitAtMost sep limit rest

def occurs (part : List Char) : List Char → Bool
  | [] => part.isEmpty
  | c :: cs => part.isPrefixOf (c :: cs) || occurs part cs

def find? (part : List Char) : List Char → Option Nat
  | [] => if part.isEmpty then some 0 else none
  | c :: cs => if part.isPrefixOf (c :: cs) then some 0 else (find? part cs).map (· + 1)

/-- The pieces between the occurrences of a text that is not empty, read from the left. `skip`
characters of an occurrence are still to be passed over. -/
def splitTextFrom (sep : List Char) : Nat → List Char → List (List Char)
  | _, [] => [[]]
  | skip + 1, _ :: cs => splitTextFrom sep skip cs
  | 0, c :: cs =>
    if sep.isPrefixOf (c :: cs) then [] :: splitTextFrom sep (sep.length - 1) cs
    else
      match splitTextFrom sep 0 cs with
      | [] => [[c]]
      | p :: ps => (c :: p) :: ps

def splitText (sep text : List Char) : List (List Char) := splitTextFrom sep 0 text

def joinWith (sep : List Char) : List (List Char) → List Char
  | [] => []
  | [p] => p
  | p :: ps => p ++ sep ++ joinWith sep ps

def replaceAll (old new text : List Char) : List Char := joinWith new (splitText old text)

/-! ### Wrapping text

A text is cut into chunks: runs of blanks, words, and the parts of words that are joined by hyphens.
Lines are filled with chunks up to a width; blanks at the ends of lines are dropped, and a chunk
that fits on no line is broken.
-/

def isPlainBlank (c : Char) : Bool := c == ' ' || c == '\t' || c == '\n' || c == '\r' || c.toNat == 11 || c.toNat == 12

def isWrapLetter (c : Char) : Bool := isWordChar c && (decimalValue? c).isNone

def isWrapPunct (c : Char) : Bool := isWordChar c || "!\"'&.,?".toList.contains c

/-- Replace tabulators by blanks up to the next multiple of eight columns. -/
def expandTabs : Nat → List Char → List Char
  | _, [] => []
  | column, c :: rest =>
    if c == '\t' then
      let fill := 8 - column % 8
      .replicate fill ' ' ++ expandTabs (column + fill) rest
    else if c == '\n' || c == '\r' then c :: expandTabs 0 rest
    else c :: expandTabs (column + 1) rest

/-- Whether a text starts with a dash of at least two hyphens before a word; the length of the
dash. -/
def dashLength? : Option Nat :=
  let dash := text.takeWhile (· == '-')
  if 2 ≤ dash.length && ((text.drop dash.length).head?.any isWordChar) then some dash.length else none

def joinsAfter : List Char → Bool
  | a :: b :: rest => isWrapLetter a && (isWrapLetter b || (b == '-' && rest.head?.any isWrapLetter))
  | _ => false

/-- Whether the hyphen after what was read, the last character first, joins two parts of a word. -/
def isJoint (read after : List Char) : Bool :=
  match read with
  | b :: '-' :: a :: _ | b :: a :: _ => isWrapLetter b && isWrapLetter a && joinsAfter after
  | _ => false

/-- The length of the word at the start of a text, given what was read before, the last character
first, and how many characters of the word those are. -/
def wordLength (read : List Char) (count : Nat) : List Char → Nat
  | [] => count
  | c :: rest =>
    if count != 0 && c == '-' && isJoint read rest then count + 1
    else if isPlainBlank c then count
    else if count != 0 && (read.head?.any isWrapPunct) && (dashLength? (c :: rest)).isSome then count
    else wordLength (c :: read) (count + 1) rest

/-- The length of the chunk at the start of a text, given what was read before. -/
def chunkLength (read text : List Char) : Nat :=
  let blanks := (text.takeWhile isPlainBlank).length
  if blanks != 0 then blanks
  else
    match dashLength? text with
    | some n => if read.head?.any isWrapPunct then n else wordLength read 0 text
    | none => wordLength read 0 text

/-- The chunks of a text, given what was read before, the last character first. -/
def chunksFrom : Nat → List Char → List Char → List (List Char)
  | 0, _, _ => []
  | _ + 1, _, [] => []
  | fuel + 1, read, text =>
    let n := max 1 (chunkLength read text)
    let chunk := text.take n
    chunk :: chunksFrom fuel (chunk.reverse ++ read) (text.drop n)

def chunks : List (List Char) :=
  let text := (expandTabs 0 text).map fun c => if isPlainBlank c then ' ' else c
  chunksFrom text.length [] text

def isBlankChunk (chunk : List Char) : Bool := chunk.all isBlank

/-- Fill a line with the chunks that fit; the chunks of the line, the last first, and the rest. -/
def fillLine (width : Nat) : Nat → List (List Char) → List (List Char) → List (List Char) × List (List Char)
  | _, line, [] => (line, [])
  | used, line, c :: rest =>
    if used + c.length ≤ width then fillLine width (used + c.length) (c :: line) rest
    else (line, c :: rest)

/-- The position after the last hyphen of a text that has something else in front of it. -/
def breakAfterHyphen? : Option Nat :=
  match (text.reverse.dropWhile (· != '-')) with
  | [] => none
  | _ :: before => if before.any (· != '-') then some (before.length + 1) else none

/-- Break a chunk that fits on no line: the part for the rest of the current line, and the rest. -/
def breakChunk (space : Nat) (chunk : List Char) : List Char × List Char :=
  let stop := if space < chunk.length then (breakAfterHyphen? (chunk.take space)).getD space else space
  (chunk.take stop, chunk.drop stop)

/-- The lines of chunks; `first` says whether no line has been closed yet. -/
def wrapChunks (width : Nat) : Nat → Bool → List (List Char) → List (List Char)
  | 0, _, _ => []
  | _ + 1, _, [] => []
  | fuel + 1, first, c :: rest =>
    let chunks := if isBlankChunk c && !first then rest else c :: rest
    let (line, rest) := fillLine width 0 [] chunks
    let (line, rest) :=
      match rest with
      | long :: after =>
        if width < long.length then
          let (head, tail) := breakChunk (width - (line.map length).foldl (· + ·) 0) long
          (head :: line, tail :: after)
        else (line, rest)
      | [] => (line, rest)
    let line :=
      match line with
      | last :: before => if isBlankChunk last then before else last :: before
      | [] => []
    if line.isEmpty then wrapChunks width fuel first rest
    else line.reverse.flatten :: wrapChunks width fuel false rest

def wrap (width : Nat) (text : List Char) : List (List Char) :=
  wrapChunks width (2 * text.length * 8 + 2) true (chunks text)

/-! ### Letter case

The lower and upper case forms of the letters of all scripts. A run is given by its first code
point, the number of its letters, the distance between neighbours, and the distance from each to its
other form.
-/

def caseRuns (last : Nat) : List Nat → List (Nat × Nat × Nat × Int)
  | gap :: count :: step :: way :: rest =>
    (last + gap, count, step, if way % 2 = 0 then way / 2 else -((way + 1) / 2 : Nat)) :: caseRuns (last + gap) rest
  | _ => []

def lowerRuns : Array (Nat × Nat × Nat × Int) := (caseRuns 0 (runLengths
  "bTQ1bSdJN1bSO71bSb4O22bE3227822HN22bA11gP1322811lO1222411lG1112221lE2112311eE111l8111lA1112211lE111lI211l
    Q111lM1112411lQ111lU211lW1322611m41112211m43112211m41112221m22222411m611124112811411122114111221141922J922
    J1141222411fD111d31K22b411h72922O11xbQ1112211j1111xbK3112211kT111dU111dY1522iA2226112911gG711c4231c2411dK2
    21dI3H1bSI91bSb811G9C22S11dB3112211D1112331h73G1eGGW1bSc8H22b6R22bI11U1722FbC22cPb21cOddBb21pnKb311pnK611p
    nKu3c81dfb4c861GcjCb71gl3b931gl3iZc322eE11qh12bC22cW81FG61FG81FG81FG61FH42FF81FW81FG81FG81FG21F221e3211HC4
    1eR411HC21F221fJE21F221g7211DC21h3221gZ211HiA11qbL411rxP111rqZ711bKbAG1WZ112wRQ1bGbzUbC1cOcO112211wyT111id
    V111wxX3322611xaV111wz5111xb1111xaZ21123112921xcT2bE22cZ2227112bheMN22bSE22eI722GV22bZ222411cxmV1522D11221
    1dmiV32226A22K11dmkF111dml1111dmkT111dmk9111dmkF211dmhN111dmiZ111dmhT111bzK1822G11cN111dmkD111cxpR12229112
    6222V112xvWQ1bSbiNb41c8eWb01c8fCB1c6CF1c6G71c6821c6bx8bF1dKdi8W1bSxkWW1bSbhoWY1bW")).toArray

def upperRuns : Array (Nat × Nat × Nat × Int) :=
  lowerRuns.map fun (first, count, step, distance) => ((first + distance).toNat, count, step, -distance)

/-- The letters with an iota below, in rows of eight: the first of a row, and the first of their
upper case forms without the iota. -/
def iotaRows : List (Nat × Nat) := [
  (8064,7944), (8072,7944), (8080,7976), (8088,7976), (8096,8040), (8104,8040)]

/-- Code points with up to three others behind each, from numbers in fours. -/
def spelledFrom (last : Nat) : List Nat → List (Nat × List Nat)
  | gap :: a :: b :: c :: rest => (last + gap, [a, b, c].filter (· != 0)) :: spelledFrom (last + gap) rest
  | _ => []

def upperExceptions : List (Nat × List Nat) :=
  (iotaRows.flatMap fun (first, upper) => (range 8).map fun k => (first + k, [upper + k, 0x399])) ++ spelledFrom 0 (runLengths
    "f1zO00b6cBcB0cAc100OtGc60bIcB00bYmK003mN003mQ00b1c2vO02nT00jFzL00c3zLvKvDWzXvKvDIzV00EzE001zK004zY001zS
    00QzM001zT004zH00l6bl1blU0ghDbcY001bd0001bdA001bdD001bdE001bdE001bdM001bf6001btmI00oMc0wP01cCvK01cFvM01cHv
    M01bTtI01ii000f1zXvV02zXvVvC2zXvVvD2zXvVx6cKirMzL01zDzL01z2zL02zDx601zDx6zL5zDzL02zL004is2zL01zJzL01z5zL02
    zJx601zJx6zL5zJzL06zLvKvC1zLvKvD3zLx601zLvKx6BzXvKvC1zXvKvD1zTvV02zXx601zXvKx6BitEzL01ba1zL01zBzL02ba1x601
    ba1x6zL5ba1zL0chxGbYbY01bYc101bYc401bYbYc11bYbYc41cBcC01cBcC0DblGblI01blGbl101blGbl701blQblI01blGbl90")

def shifted (runs : Array (Nat × Nat × Nat × Int)) (c : Char) : Char :=
  let n := c.toNat
  match runs.find? fun (first, count, step, _) =>
    first ≤ n && (n - first) / step < count && (n - first) % step == 0 with
  | some (_, _, _, distance) => .ofNat (n + distance).toNat
  | none => c

def lowerChar (c : Char) : List Char :=
  if c.toNat < 128 then [c.toLower]
  else if c.toNat == 0x130 then ['i', .ofNat 0x307]
  else [shifted lowerRuns c]

def upperChar (c : Char) : List Char :=
  if c.toNat < 128 then [c.toUpper]
  else
    match upperExceptions.find? fun e => e.1 == c.toNat with
    | some (_, letters) => letters.map .ofNat
    | none => [shifted upperRuns c]

/-! ### Reading integers and fractions from text

Blanks at the ends are passed over, a sign may stand in front, digits may be of any script, and one
underscore may stand between two digits.
-/

/-- The value of digits with single underscores between them, onto a value read so far. -/
def digitsValue (acc : Nat) : List Char → Option Nat
  | [] => some acc
  | ['_'] => none
  | '_' :: c :: cs =>
    match decimalValue? c with
    | some d => digitsValue (10 * acc + d) cs
    | none => none
  | c :: cs =>
    match decimalValue? c with
    | some d => digitsValue (10 * acc + d) cs
    | none => none

/-- A natural: at least one digit, the first not an underscore. -/
def readNat? : List Char → Option Nat
  | [] => none
  | c :: cs => (decimalValue? c).bind (digitsValue · cs)

def readSign : List Char → Bool × List Char
  | '-' :: cs => (true, cs)
  | '+' :: cs | cs => (false, cs)

def readInt? (text : List Char) : Option Int :=
  let (negative, digits) := readSign (strip isBlank text)
  (readNat? digits).map fun n => if negative then -(n : Int) else n

/-- The digits of a run that may hold single underscores, as plain digits; nothing at all is
allowed. -/
def plainDigits? (run : List Char) : Option (List Char) :=
  if run.isEmpty then some []
  else (readNat? run).map fun _ => (run.filterMap decimalValue?).map fun d => .ofNat ('0'.toNat + d)

/-- A fraction in decimal or scientific form, or a word for an infinite or undefined number. -/
def readFloat? (text : List Char) : Option Float :=
  let (negative, body) := readSign (strip isBlank text)
  let signed := fun x => if negative then -x else x
  let lower := .ofList (body.map .toLower)
  if lower == "inf" || lower == "infinity" then some (signed (1.0 / 0.0))
  else if lower == "nan" then some (0.0 / 0.0)
  else
    let (mantissa, power) := cutBy (fun c => c == 'e' || c == 'E') body
    let (whole, frac) := cutBy (· == '.') mantissa
    match plainDigits? whole, plainDigits? (frac.getD []) with
    | some w, some f =>
      if w.isEmpty && f.isEmpty then none
      else
        match power with
        | none => some (signed (Number.ofDecimal (Number.ofDigits (w ++ f)) (-f.length)))
        | some p =>
          let (minus, digits) := readSign p
          (readNat? digits).map fun n =>
            let e : Int := if minus then -(n : Int) else n
            signed (Number.ofDecimal (Number.ofDigits (w ++ f)) (e - f.length))
    | _, _ => none

/-! ### Quoted text

A text in quotes: single ones, or double ones if the text holds a single quote and no double one.
A character without a visible form is written as an escape.
-/

def hexDigits (width n : Nat) : List Char :=
  (range width).reverse.map fun i => Json.hexDigit (n / Nat.pow 16 i % 16)

def quotedChar (quote c : Char) : List Char :=
  if c == quote || c == '\\' then ['\\', c]
  else if c == '\n' then ['\\', 'n']
  else if c == '\r' then ['\\', 'r']
  else if c == '\t' then ['\\', 't']
  else if isPrintable c then [c]
  else if c.toNat < 0x100 then '\\' :: 'x' :: hexDigits 2 c.toNat
  else if c.toNat < 0x10000 then '\\' :: 'u' :: hexDigits 4 c.toNat
  else '\\' :: 'U' :: hexDigits 8 c.toNat

def quoteFor (text : List Char) : Char := if text.contains '\'' && !text.contains '"' then '"' else '\''

def quoted (s : String) : String :=
  let cs := s.toList
  let q := quoteFor cs
  .ofList (q :: (cs.flatMap (quotedChar q) ++ [q]))

end TensorToolchain.Text

namespace TensorToolchain

def splitAt (sep : Char) (s : String) : List String := (Text.splitChar sep s.toList).map .ofList

def wordsOf (s : String) : List String := (Text.words s.toList).map .ofList

def trimmed (s : String) : String := .ofList (Text.strip Text.isBlank s.toList)

def startsWith (start s : String) : Bool := start.toList.isPrefixOf s.toList

def endsWith (tail s : String) : Bool := tail.toList.isSuffixOf s.toList

def occursIn (part s : String) : Bool := Text.occurs part.toList s.toList

def replaceIn (old new s : String) : String := .ofList (Text.replaceAll old.toList new.toList s.toList)

def joined (sep : String) (parts : List String) : String := sep.intercalate parts

def padRight (width : Nat) (s : String) : String := s ++ .ofList (.replicate (width - s.length) ' ')

def padLeft (width : Nat) (s : String) : String := .ofList (.replicate (width - s.length) ' ') ++ s

def lowerCase (s : String) : String := .ofList (s.toList.flatMap Text.lowerChar)

def upperCase (s : String) : String := .ofList (s.toList.flatMap Text.upperChar)

def lowerFirst (s : String) : String :=
  match s.toList with
  | [] => s
  | c :: rest => .ofList (Text.lowerChar c ++ rest)

/-! ### Placeholders

A fixed text may hold names between at signs, each of which stands for a value. The values are put
in at once, so that a value is never searched for names itself.
-/

/-- Put values in the places of the names between at signs: every second piece is a name. -/
def fillPieces (values : List (String × String)) : List String → List String
  | [] => []
  | [last] => [last]
  | text :: name :: rest => text :: (values.lookup name).getD "" :: fillPieces values rest

def fillIn (values : List (String × String)) (text : String) : String :=
  .join (fillPieces values (splitAt '@' text))

def unlines (lines : List String) : String := joined "\n" lines

end TensorToolchain
