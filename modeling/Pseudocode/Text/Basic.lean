/-! # Text as a list of characters -/

namespace Pseudocode

/-- Source and output text, one character at a time. -/
abbrev Text := List Char

instance : Coe String Text := ⟨String.toList⟩

namespace Text

def inRanges (ranges : List (Nat × Nat)) (n : Nat) : Bool :=
  ranges.any fun r => r.1 ≤ n && n ≤ r.2

/-- Code points that count as white space. -/
def blankRanges : List (Nat × Nat) :=
  [(0x9, 0xD), (0x20, 0x20), (0x85, 0x85), (0xA0, 0xA0), (0x1680, 0x1680), (0x2000, 0x200A),
   (0x2028, 0x2029), (0x202F, 0x202F), (0x205F, 0x205F), (0x3000, 0x3000)]

/-- White space in the sense of Unicode: tabs, line ends, spaces of every width. -/
def isBlank (c : Char) : Bool := inRanges blankRanges c.toNat

/-! ### Ends of a text -/

def trimStart (s : Text) : Text := s.dropWhile isBlank

/-- Drops the longest run of characters in `p` from the end. -/
def dropEndWhile (p : Char → Bool) (s : Text) : Text := (s.reverse.dropWhile p).reverse

def trimEnd (s : Text) : Text := dropEndWhile isBlank s

def trim (s : Text) : Text := trimEnd (trimStart s)

def after? (lead s : Text) : Option Text :=
  if lead.isPrefixOf s then some (s.drop lead.length) else none

def before? (tail s : Text) : Option Text :=
  if tail.isSuffixOf s then some (s.take (s.length - tail.length)) else none

/-- What stands between two delimiters at the ends of the text. -/
def between? (opening closing s : Text) : Option Text := after? opening s >>= before? closing

def startsWith (lead s : Text) : Bool := lead.isPrefixOf s

def endsWith (tail s : Text) : Bool := tail.isSuffixOf s

/-- The keyword begins the text and is not merely the start of a longer name. -/
def beginsWithWord (isName : Char → Bool) (word s : Text) : Bool :=
  match after? word s with
  | some rest => !(rest.head?.any isName)
  | none => false

def isOneOf (choices : List Text) (s : Text) : Bool := choices.contains s

@[simp] theorem isOneOf_iff {choices : List Text} {s : Text} :
    isOneOf choices s = true ↔ s ∈ choices := by
  simp [isOneOf]

/-! ### Searching and splitting -/

/-- The text around the first occurrence of `needle`. -/
def splitAt? (needle : Text) : Text → Option (Text × Text)
  | [] => if needle.isEmpty then some ([], []) else none
  | c :: cs =>
    if needle.isPrefixOf (c :: cs) then some ([], (c :: cs).drop needle.length)
    else (splitAt? needle cs).map fun r => (c :: r.1, r.2)

/-- Splitting loses nothing but the needle. -/
theorem eq_append_of_splitAt? {needle s : Text} {r : Text × Text} (h : splitAt? needle s = some r) :
    s = r.1 ++ needle ++ r.2 := by
  induction s generalizing r with
  | nil =>
    simp only [splitAt?, List.isEmpty_iff] at h
    split at h
    · next hn =>
      obtain rfl := Option.some.inj h
      simp [hn]
    · simp at h
  | cons c cs ih =>
    simp only [splitAt?] at h
    split at h
    · next hp =>
      obtain ⟨t, ht⟩ := List.isPrefixOf_iff_prefix.1 hp
      obtain rfl := Option.some.inj h
      simp [← ht]
    · obtain ⟨r', hr', rfl⟩ := Option.map_eq_some_iff.1 h
      simp [ih hr']

def has (needle s : Text) : Bool := (splitAt? needle s).isSome

def upTo (needle s : Text) : Text :=
  match splitAt? needle s with
  | some r => r.1
  | none => s

/-- Pieces between the occurrences of a separator; always at least one. -/
def pieces (sep : Char) : Text → List Text
  | [] => [[]]
  | c :: cs =>
    if c = sep then [] :: pieces sep cs
    else match pieces sep cs with
      | p :: ps => (c :: p) :: ps
      | [] => [[c]]

/-- Maximal runs of characters that are not white space. -/
def words : Text → List Text
  | [] => []
  | c :: cs =>
    if isBlank c then words cs
    else match cs with
      | [] => [[c]]
      | d :: _ =>
        if isBlank d then [c] :: words cs
        else match words cs with
          | w :: ws => (c :: w) :: ws
          | [] => [[c]]

def splitLastBlank? (s : Text) : Option (Text × Text) :=
  match s.reverse.span (fun c => !isBlank c) with
  | (_, []) => none
  | (tail, _ :: rest) => some (rest.reverse, tail.reverse)

def join (sep : Text) (parts : List Text) : Text := sep.intercalate parts

/-- Replaces the occurrences of `needle` from left to right, without overlaps; `skip` characters of
an occurrence are still to be passed over. -/
def replaceFrom (needle new : Text) : Nat → Text → Text
  | _, [] => []
  | skip + 1, _ :: cs => replaceFrom needle new skip cs
  | 0, c :: cs =>
    if needle.isPrefixOf (c :: cs) then new ++ replaceFrom needle new (needle.length - 1) cs
    else c :: replaceFrom needle new 0 cs

/-- Replaces every occurrence of a nonempty `needle`. -/
def replaceAll (needle new s : Text) : Text := replaceFrom needle new 0 s

/-! ### Lines and measures -/

/-- One line end `\r` belongs to the `\n` after it. -/
def dropReturn (line : Text) : Text := (before? "\r" line).getD line

/-- Cuts text at line feeds. A final line feed ends the last line and starts no other. -/
def physicalLines (s : Text) : List Text :=
  let parts := pieces '\n' s
  let last := parts.getLast?.getD []
  parts.dropLast.map dropReturn ++ if last.isEmpty then [] else [last]

def byteLength (s : Text) : Nat := s.foldr (fun c n => c.utf8Size + n) 0

def spaces (n : Nat) : Text := List.replicate n ' '

def asciiLower (s : Text) : Text := s.map Char.toLower

def leadingBlanks (s : Text) : Text := s.takeWhile isBlank

/-- Width of the leading white space in columns, a tab being four columns wide. -/
def leadingColumns (s : Text) : Nat :=
  (leadingBlanks s).foldr (fun c n => (if c = '\t' then 4 else 1) + n) 0

end Text

end Pseudocode
