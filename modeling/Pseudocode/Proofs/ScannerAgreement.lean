import Pseudocode.Proofs.OutsideLiterals

/-! # Scans agree, on characters and on bytes

An assignment may also be looked for among the bytes of a text in UTF-8. A backslash then escapes the next byte and
not the next character. All the same the bytes lead to the place that the characters lead to: no byte of a longer
character is taken for a quote, a backslash, a bracket or an equals sign. With that, all scans go by one and the
same division of a text into code and literals. -/

namespace Pseudocode.Text

/-! ### Bytes of characters -/

/-- The bytes of a text in UTF-8. -/
def utf8 (s : Text) : List UInt8 := s.flatMap String.utf8EncodeChar

theorem utf8_cons (c : Char) (s : Text) : utf8 (c :: s) = String.utf8EncodeChar c ++ utf8 s := List.flatMap_cons

theorem isValid_length_utf8 (s u : Text) : String.Pos.Raw.IsValid (String.ofList (s ++ u)) ⟨(utf8 s).length⟩ := by
  refine String.Pos.Raw.isValid_iff_exists_append.mpr ⟨String.ofList s, String.ofList u, String.ofList_append, ?_⟩
  have hsize : (String.ofList s).toByteArray.size = (utf8 s).length := by
    rw [String.toByteArray_ofList]
    exact List.size_toByteArray
  exact String.Pos.Raw.ext hsize.symm

/-- Characters of one byte. -/
def isShort (c : Char) : Bool := decide (c.val.toNat ≤ 127)

theorem utf8EncodeChar_of_isShort {c : Char} (h : isShort c = true) : String.utf8EncodeChar c = [c.toUInt8] :=
  String.utf8EncodeChar_eq_singleton (Char.utf8Size_eq_one_iff.mpr (UInt32.le_iff_toNat_le.mpr (of_decide_eq_true h)))

theorem toNat_toUInt8_of_isShort {c : Char} (h : isShort c = true) : c.toUInt8.toNat = c.val.toNat := by
  have hle : c.val.toNat ≤ 127 := of_decide_eq_true h
  rw [Char.toUInt8, UInt32.toNat_toUInt8]
  omega

theorem toUInt8_inj {c d : Char} (hc : isShort c = true) (hd : isShort d = true) : c.toUInt8 = d.toUInt8 ↔ c = d := by
  refine ⟨fun h => Char.ext (UInt32.toNat_inj.mp ?_), congrArg _⟩
  rw [← toNat_toUInt8_of_isShort hc, ← toNat_toUInt8_of_isShort hd, h]

theorem le_of_mem_utf8EncodeChar {c : Char} (h : isShort c = false) : ∀ b ∈ String.utf8EncodeChar c, 128 ≤ b.toNat := by
  unfold String.utf8EncodeChar
  rw [if_neg (of_decide_eq_false h)]
  split
  · simp
    omega
  · split <;> simp <;> omega

/-- The bytes of some short characters. -/
def isByteOf (s : Text) (b : UInt8) : Bool := (s.map Char.toUInt8).contains b

theorem isByteOf_toUInt8 {c : Char} (hc : isShort c = true) {s : Text} (hs : s.all isShort = true) :
    isByteOf s c.toUInt8 = s.contains c := by
  rw [Bool.eq_iff_iff, isByteOf, List.contains_iff_mem, List.contains_iff_mem, List.mem_map]
  constructor
  · rintro ⟨d, hd, heq⟩
    exact (toUInt8_inj (List.all_eq_true.mp hs d hd) hc).mp heq ▸ hd
  · exact fun hmem => ⟨c, hmem, rfl⟩

theorem isByteOf_of_le {b : UInt8} (hb : 128 ≤ b.toNat) {s : Text} (hs : s.all isShort = true) :
    isByteOf s b = false := by
  rw [Bool.eq_false_iff, isByteOf, ne_eq, List.contains_iff_mem, List.mem_map]
  rintro ⟨d, hd, rfl⟩
  have hshort := List.all_eq_true.mp hs d hd
  rw [toNat_toUInt8_of_isShort hshort] at hb
  exact absurd (of_decide_eq_true hshort) (by omega)

theorem not_mem_of_long {c : Char} (hc : isShort c = false) {s : Text} (hs : s.all isShort = true) : c ∉ s :=
  fun hmem => by simp [List.all_eq_true.mp hs c hmem] at hc

/-! ### The scan of bytes -/

/-- Where a scan of bytes stands: the quote of the literal it is in, whether it passes over the next byte, and how
many brackets are open. -/
structure ByteScan where
  quote : Option UInt8 := none
  escaped : Bool := false
  depth : Int := 0

namespace ByteScan

def next (scan : ByteScan) (b : UInt8) : ByteScan :=
  if scan.escaped then { scan with escaped := false }
  else match scan.quote with
    | some q =>
      if isByteOf ['\\'] b then { scan with escaped := true }
      else if b = q then { scan with quote := none }
      else scan
    | none =>
      if isByteOf ['"', '\''] b then { scan with quote := some b }
      else if isByteOf ['(', '[', '\x7b'] b then { scan with depth := scan.depth + 1 }
      else if isByteOf [')', ']', '\x7d'] b then { scan with depth := scan.depth - 1 }
      else scan

/-- A plain equals sign, by its byte and the bytes around it. -/
def stopsAt (scan : ByteScan) (before b : UInt8) (after : Option UInt8) : Bool :=
  !scan.escaped && scan.quote.isNone && isByteOf ['='] b && scan.depth == 0 && !after.any (isByteOf ['='])
    && !isByteOf operatorStarts before

/-- The number of bytes before the first plain equals sign. -/
def offsetFrom : ByteScan → UInt8 → List UInt8 → Option Nat
  | _, _, [] => none
  | scan, before, b :: bs =>
    if scan.stopsAt before b bs.head? then some 0 else (offsetFrom (scan.next b) b bs).map (· + 1)

end ByteScan

def assignmentOffset? (bytes : List UInt8) : Option Nat := ByteScan.offsetFrom {} ' '.toUInt8 bytes

/-! ### Bytes and characters in step -/

/-- A scan of characters and a scan of bytes stand at the same place. -/
inductive ByteScan.Tracks : Mode → Int → ByteScan → Prop
  | code {d : Int} : Tracks .code d ⟨none, false, d⟩
  | literal {q : Char} {d : Int} (quote : isQuote q = true) : Tracks (.literal q) d ⟨some q.toUInt8, false, d⟩
  | escaped {q : Char} {d : Int} (quote : isQuote q = true) : Tracks (.escaped q) d ⟨some q.toUInt8, true, d⟩

theorem isShort_of_isQuote {q : Char} (h : isQuote q = true) : isShort q = true := by
  rcases (by simpa [isQuote] using h : q = '"' ∨ q = '\'') with rfl | rfl <;> decide

theorem isQuote_eq_contains (c : Char) : isQuote c = ['"', '\''].contains c := by
  rw [isQuote, List.contains_cons, List.contains_cons, List.contains_nil, Bool.or_false]

theorem weight_of_ne_code {m : Mode} (h : m ≠ .code) (c : Char) : m.weight c = 0 := if_neg (role_ne_code h c)

namespace ByteScan

variable {m : Mode} {d : Int} {scan : ByteScan} {before b : UInt8}

theorem Tracks.next_of_isShort (h : Tracks m d scan) {c : Char} (hc : isShort c = true) :
    Tracks (m.next c) (d + m.weight c) (scan.next c.toUInt8) := by
  have hbyte {s : Text} (hs : s.all isShort = true) := isByteOf_toUInt8 hc hs
  cases h with
  | code =>
    cases hq : isQuote c with
    | true =>
      have hnext : next ⟨none, false, d⟩ c.toUInt8 = ⟨some c.toUInt8, false, d⟩ := by
        simp only [next, hbyte (s := ['"', '\'']) (by decide), ← isQuote_eq_contains, hq, if_true]
        rfl
      have hweight : Mode.code.weight c = 0 := by simp [Mode.weight, Mode.role, hq]
      rw [hnext, hweight, Int.add_zero, show Mode.code.next c = .literal c by simp [Mode.next, hq]]
      exact .literal hq
    | false =>
      have hnext : next ⟨none, false, d⟩ c.toUInt8 = ⟨none, false, d + Mode.code.weight c⟩ := by
        simp (disch := decide) only [next, hbyte, ← isQuote_eq_contains, hq, Mode.weight, Mode.role, bracketWeight,
          List.contains_iff_mem, Bool.false_eq_true, if_false, if_true]
        split
        · rfl
        · split
          · rfl
          · rw [Int.add_zero]
      rw [hnext, show Mode.code.next c = .code by simp [Mode.next, hq]]
      exact .code
  | @literal q _ hq =>
    have hnext : next ⟨some q.toUInt8, false, d⟩ c.toUInt8 =
        if c = '\\' then ⟨some q.toUInt8, true, d⟩
        else if c = q then ⟨none, false, d⟩ else ⟨some q.toUInt8, false, d⟩ := by
      simp (disch := decide) [next, hbyte, toUInt8_inj hc (isShort_of_isQuote hq)]
    rw [hnext, weight_of_ne_code (by simp), Int.add_zero, Mode.next]
    split
    · exact .escaped hq
    · split
      · exact .code
      · exact .literal hq
  | @escaped q _ hq =>
    rw [weight_of_ne_code (by simp), Int.add_zero]
    exact .literal hq

private theorem Tracks.next_of_le (h : Tracks m d scan) (hb : 128 ≤ b.toNat) :
    scan.next b = { scan with escaped := false } := by
  have hbyte {s : Text} (hs : s.all isShort = true) := isByteOf_of_le hb hs
  cases h with
  | code => simp (disch := decide) [next, hbyte]
  | @literal q _ hq =>
    have hne : b ≠ q.toUInt8 := by
      rintro rfl
      have hmem : isByteOf [q] q.toUInt8 = true := by simp [isByteOf]
      rw [hbyte (by simp [isShort_of_isQuote hq])] at hmem
      cases hmem
    simp (disch := decide) [next, hbyte, hne]
  | escaped => rfl

/-- A longer character is passed over, and an escape has ended after it. -/
theorem Tracks.next_of_long (h : Tracks m d scan) {c : Char} (hc : isShort c = false) :
    Tracks (m.next c) (d + m.weight c) { scan with escaped := false } := by
  have hnot {s : Text} (hs : s.all isShort = true) := not_mem_of_long hc hs
  cases h with
  | code =>
    have hq : isQuote c = false := by
      rw [isQuote_eq_contains, Bool.eq_false_iff, ne_eq, List.contains_iff_mem]
      exact hnot (by decide)
    have hweight : Mode.code.weight c = 0 := by
      simp only [Mode.weight, bracketWeight, if_neg (hnot (s := ['(', '[', '\x7b']) (by decide)),
        if_neg (hnot (s := [')', ']', '\x7d']) (by decide)), ite_self]
    rw [hweight, Int.add_zero, show Mode.code.next c = .code by simp [Mode.next, hq]]
    exact .code
  | @literal q _ hq =>
    have hback : c ≠ '\\' := List.ne_of_not_mem_cons (hnot (s := ['\\']) (by decide))
    have hne : c ≠ q := List.ne_of_not_mem_cons (hnot (s := [q]) (by simp [isShort_of_isQuote hq]))
    rw [weight_of_ne_code (by simp), Int.add_zero,
      show (Mode.literal q).next c = .literal q by simp [Mode.next, hback, hne]]
    exact .literal hq
  | @escaped q _ hq =>
    rw [weight_of_ne_code (by simp), Int.add_zero]
    exact .literal hq

private theorem stopsAt_of_le (hb : 128 ≤ b.toNat) (after : Option UInt8) :
    scan.stopsAt before b after = false := by
  simp (disch := decide) [stopsAt, isByteOf_of_le hb]

private theorem Tracks.offsetFrom_of_long (h : Tracks m d scan) {c : Char} (hc : isShort c = false) {bs : List UInt8}
    (hbs : ∀ b ∈ bs, 128 ≤ b.toNat) (hne : bs ≠ []) (rest : List UInt8) :
    ∃ last : UInt8, 128 ≤ last.toNat ∧ scan.offsetFrom before (bs ++ rest) =
      (offsetFrom { scan with escaped := false } last rest).map (· + bs.length) := by
  induction bs generalizing m d scan before with
  | nil => exact absurd rfl hne
  | cons b bs ih =>
    obtain ⟨hb, hbs⟩ := List.forall_mem_cons.mp hbs
    rw [List.cons_append, offsetFrom, stopsAt_of_le hb, if_neg Bool.false_ne_true, h.next_of_le hb]
    by_cases hnil : bs = []
    · subst hnil
      exact ⟨b, hb, rfl⟩
    · obtain ⟨last, hlast, hoffset⟩ := ih (h.next_of_long hc) hbs hnil
      refine ⟨last, hlast, ?_⟩
      rw [hoffset, Option.map_map]
      rfl

private theorem any_head?_utf8 (s : Text) : (utf8 s).head?.any (isByteOf ['=']) = (s.head? == some '=') := by
  cases s with
  | nil => rfl
  | cons c s =>
    rw [utf8_cons, List.head?_append]
    cases hc : isShort c with
    | true =>
      rw [utf8EncodeChar_of_isShort hc]
      simp (disch := decide) [isByteOf_toUInt8 hc, beq_eq_decide]
    | false =>
      have hne : c ≠ '=' := List.ne_of_not_mem_cons (not_mem_of_long hc (s := ['=']) (by decide))
      obtain ⟨b, bs, hbs⟩ := List.exists_cons_of_ne_nil (String.utf8EncodeChar_ne_nil (c := c))
      have hb := le_of_mem_utf8EncodeChar hc b (by simp [hbs])
      rw [hbs]
      simp (disch := decide) [isByteOf_of_le hb, hne]

private theorem Tracks.stopsAt_iff (h : Tracks m d scan) {c : Char} (hc : isShort c = true) {p : Char}
    (hp : isByteOf operatorStarts before = operatorStarts.contains p) (s : Text) :
    scan.stopsAt before c.toUInt8 (utf8 s).head? =
      (m.role c = .code && c == '=' && d == 0 && s.head? != some '=' && !operatorStarts.contains p) := by
  have hequals : isByteOf ['='] c.toUInt8 = (c == '=') := by
    rw [isByteOf_toUInt8 hc (by decide), List.contains_cons, List.contains_nil, Bool.or_false]
  rw [stopsAt, hequals, hp, any_head?_utf8]
  cases h with
  | code =>
    by_cases hc' : c = '='
    · subst hc'
      simp [Mode.role, isQuote, bne]
    · simp [beq_false_of_ne hc']
  | literal | escaped =>
    rw [decide_eq_false (role_ne_code (by simp) c)]
    simp

private theorem Tracks.offsetFrom_utf8 (h : Tracks m d scan) {p : Char}
    (hp : isByteOf operatorStarts before = operatorStarts.contains p) (s : Text) :
    scan.offsetFrom before (utf8 s) = (assignmentFrom p m d s).map fun r => (utf8 r.1).length := by
  induction s generalizing m d scan before p with
  | nil => rfl
  | cons c s ih =>
    rw [utf8_cons, assignmentFrom]
    cases hc : isShort c with
    | true =>
      rw [utf8EncodeChar_of_isShort hc, List.singleton_append, offsetFrom, h.stopsAt_iff hc hp]
      split
      · rfl
      · rw [ih (h.next_of_isShort hc) (isByteOf_toUInt8 hc (by decide)), Option.map_map, Option.map_map]
        simp [Function.comp_def, utf8_cons, utf8EncodeChar_of_isShort hc, Nat.add_comm]
    | false =>
      obtain ⟨last, hlast, hoffset⟩ := h.offsetFrom_of_long hc (le_of_mem_utf8EncodeChar hc)
        String.utf8EncodeChar_ne_nil (utf8 s)
      have hne : c ≠ '=' := List.ne_of_not_mem_cons (not_mem_of_long hc (s := ['=']) (by decide))
      have hlast' : isByteOf operatorStarts last = operatorStarts.contains c := by
        rw [isByteOf_of_le hlast (by decide), eq_comm, Bool.eq_false_iff, ne_eq, List.contains_iff_mem]
        exact not_mem_of_long hc (by decide)
      rw [hoffset, ih (h.next_of_long hc) hlast', if_neg (by simp [hne]), Option.map_map, Option.map_map]
      simp [Function.comp_def, utf8_cons, Nat.add_comm]

end ByteScan

private theorem assignmentOffset?_utf8 (s : Text) :
    assignmentOffset? (utf8 s) = (splitAssignment? s).map fun r => (utf8 r.1).length :=
  ByteScan.Tracks.code.offsetFrom_utf8 (by decide) s

/-- The first plain equals sign is found on characters and on bytes. -/
theorem atFirst_assignment (s : Text) :
    AtFirst (PlainEqualsFrom ' ' .code 0 s)
      (fun i => (some (s.take i, s.drop (i + 1)), some (utf8 (s.take i)).length)) (none, none)
      (splitAssignment? s, assignmentOffset? (utf8 s)) := by
  rw [assignmentOffset?_utf8]
  exact (atFirst_assignmentFrom ' ' .code 0 s).map fun r => (r, r.map fun r => (utf8 r.1).length)

private theorem plainEqualsFrom_iff (s : Text) (i : Nat) : PlainEqualsFrom ' ' .code 0 s i ↔
    (marksFrom .code s)[i]? = some ('=', true) ∧ net true (outside ((marksFrom .code s).take i)) = 0 ∧
      (s.drop (i + 1)).head? ≠ some '=' ∧ ∀ c ∈ (s.take i).getLast?, c ∉ operatorStarts := by
  have hbefore : (∀ c ∈ (' ' :: s.take i).getLast?, c ∉ operatorStarts) ↔
      ∀ c ∈ (s.take i).getLast?, c ∉ operatorStarts := by
    cases s.take i with
    | nil => simpa using (by decide : ' ' ∉ operatorStarts)
    | cons c u => rw [List.getLast?_cons_cons]
  rw [PlainEqualsFrom, hbefore, Int.zero_add]

private theorem isValid_assignmentOffset? (s : Text) :
    ∀ n ∈ assignmentOffset? (utf8 s), String.Pos.Raw.IsValid (String.ofList s) ⟨n⟩ := by
  refine (atFirst_assignment s).elim (P := fun x => ∀ n ∈ x.2, String.Pos.Raw.IsValid (String.ofList s) ⟨n⟩) ?_ (by simp)
  rintro i _ n ⟨rfl⟩
  have hvalid := isValid_length_utf8 (s.take i) (s.drop i)
  rwa [List.take_append_drop] at hvalid

/-- Every text is written in one way as code and literals, and this way marks the characters outside literals. By
these marks go the first comment marker, the braces and brackets that are counted, the separators at which a text is
cut, the stretches of code that are mapped, and the first plain equals sign, which is found on characters and, with
the number of bytes of the characters before it, on bytes. -/
theorem scans_agree (s : Text) : ∃ t : Segments, (∀ t' : Segments, t'.Written ∧ t'.text = s ↔ t' = t) ∧
    t.marked.map Prod.fst = s ∧
    (∀ marker : Text,
      AtFirst (fun i => (∃ c, t.marked[i]? = some (c, true)) ∧ marker <+: s.drop i)
        (fun i => (trimEnd (s.take i), some (trim (s.drop (marker.length + i))))) (trimEnd s, none)
        (splitComment marker s)) ∧
    braceCounts s = ((outside t.marked).count '\x7b', (outside t.marked).count '\x7d') ∧
    (∀ braces : Bool, bracketBalance braces s = net braces (outside t.marked)) ∧
    (∀ sep : Char, isQuote sep = false → bracketWeight sep = 0 → ∃ p ps, s = p ++ ps.flatMap (sep :: ·) ∧
      (∀ i, i ∈ joints p ps ↔ t.marked[i]? = some (sep, true) ∧ net true (outside (t.marked.take i)) = 0) ∧
      splitTopLevel sep s = if trim p = [] ∧ ps = [] then [] else (p :: ps).map trim) ∧
    (t.stretches.flatten = outside t.marked ∧
      ∀ (doubleQuotes : Bool) (f : Text → Text), mapCode doubleQuotes f s = (t.map doubleQuotes f).text) ∧
    AtFirst (fun i => t.marked[i]? = some ('=', true) ∧ net true (outside (t.marked.take i)) = 0 ∧
        (s.drop (i + 1)).head? ≠ some '=' ∧ ∀ c ∈ (s.take i).getLast?, c ∉ operatorStarts)
      (fun i => (some (s.take i, s.drop (i + 1)), some (utf8 (s.take i)).length)) (none, none)
      (splitAssignment? s, assignmentOffset? (utf8 s)) ∧
    ∀ n ∈ assignmentOffset? (utf8 s), String.Pos.Raw.IsValid (String.ofList s) ⟨n⟩ := by
  refine ⟨segments s, fun t' => written_iff.trans eq_comm, ?_⟩
  rw [flatten_stretches, marked_segments]
  refine ⟨map_fst_marksFrom .code s, fun marker => atFirst_splitComment marker s, ?_, ?_, ?_, ⟨rfl, ?_⟩, ?_,
    isValid_assignmentOffset? s⟩
  · rw [outside_marksFrom]
    rfl
  · intro braces
    rw [outside_marksFrom, bracketBalance_eq_net]
  · intro sep hquote hbracket
    refine ⟨_, _, splitFrom_eq sep .code 0 s, fun i => ?_, splitTopLevel_eq sep s⟩
    rw [mem_joints_splitFrom hquote hbracket, Int.zero_add]
  · exact fun doubleQuotes f => (Segments.text_map doubleQuotes f s).symm
  · exact (atFirst_assignment s).congr (plainEqualsFrom_iff s)

/-- Here a backslash escapes a character of two bytes, and equals signs, commas and comment markers stand in
literals. The equals sign comes after ten characters and thirteen bytes. -/
theorem scans_agree_multibyte :
    let s : Text := "x[\"\\é=ü\"]ß= 'a,#' , b # c"
    isQuote ',' = false ∧ bracketWeight ',' = 0 ∧
    splitAssignment? s = some (("x[\"\\é=ü\"]ß" : Text), (" 'a,#' , b # c" : Text)) ∧
    assignmentOffset? (utf8 s) = some 13 ∧ (splitComment "#" s).2 = some ("c" : Text) ∧
    ∃ t : Segments, (t.Written ∧ t.text = s) ∧ ∃ p ps, s = p ++ ps.flatMap (',' :: ·) ∧
      ∀ i, i ∈ joints p ps ↔ t.marked[i]? = some (',', true) ∧ net true (outside (t.marked.take i)) = 0 := by
  intro s
  obtain ⟨t, ht, _, _, _, _, hsplit, _⟩ := scans_agree s
  obtain ⟨p, ps, hs, hjoints, _⟩ := hsplit ',' (by decide) (by decide)
  exact ⟨by decide, by decide, by decide +kernel, by decide +kernel, by decide +kernel, t, (ht t).mpr rfl, p, ps, hs,
    hjoints⟩

end Pseudocode.Text
