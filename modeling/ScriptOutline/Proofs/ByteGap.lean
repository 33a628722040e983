/-
Gaps read byte by byte.

`Gap.read` goes by characters.  `ByteGap.read?` stands at a byte offset and looks for the end of a
comment among the bytes: for a byte that may begin a line break, and then at the character there, or
for the two bytes that close a block comment.  Where it takes a slice of the text, no character
may be cut in two, and it may not reach behind the end; otherwise it fails.

It never fails and reads the same gap.  The bytes of a character behind its first one are bytes of
no other kind, so a search that goes on in the middle of a character passes over the rest of it.
-/
import ScriptOutline.Proofs.LineTable

namespace ScriptOutline

open Text

namespace Text

def bytes (cs : List Char) : List UInt8 := cs.flatMap String.utf8EncodeChar

def bytesFrom? (bs : List UInt8) (n : Nat) : Option (List UInt8) :=
  if n ≤ bs.length then some (bs.drop n) else none

/-- The characters from byte `n` on, unless that byte is inside a character or behind the end. -/
def charactersFrom? : List Char → Nat → Option (List Char)
  | cs, 0 => some cs
  | [], _ + 1 => none
  | c :: cs, n + 1 =>
    if c.utf8Size ≤ n + 1 then charactersFrom? cs (n + 1 - c.utf8Size) else none

def slice? (cs : List Char) (start stop : Nat) : Option (List Char) := do
  let rest ← charactersFrom? cs start
  if stop < start then none
  return rest.take (← Lines.charactersIn rest (stop - start))

/-- Where some bytes first contain others. -/
def search (needle : List UInt8) : List UInt8 → Option Nat
  | [] => none
  | b :: bs => if needle.isPrefixOf (b :: bs) then some 0 else (search needle bs).map (· + 1)

theorem byteLength_bytes (cs : List Char) : (bytes cs).length = byteLength cs := by
  induction cs with
  | nil => rfl
  | cons c cs ih =>
    rw [bytes, List.flatMap_cons, List.length_append, String.length_utf8EncodeChar, byteLength]
    exact congrArg _ ih

theorem bytes_append (cs ds : List Char) : bytes (cs ++ ds) = bytes cs ++ bytes ds :=
  List.flatMap_append

theorem bytesFrom?_append (as bs : List UInt8) : bytesFrom? (as ++ bs) as.length = some bs := by
  rw [bytesFrom?, if_pos (by simp), List.drop_left]

theorem charactersFrom?_append (pre post : List Char) :
    charactersFrom? (pre ++ post) (byteLength pre) = some post := by
  induction pre with
  | nil => cases post <;> rfl
  | cons c pre ih =>
    obtain ⟨n, hn⟩ := byteLength_cons_eq_succ c pre
    have hsub : n + 1 - c.utf8Size = byteLength pre := by
      rw [← hn, byteLength, Nat.add_sub_cancel_left]
    have hle : c.utf8Size ≤ n + 1 := by
      rw [← hn, byteLength]
      exact Nat.le_add_right _ _
    rw [hn, List.cons_append, charactersFrom?, if_pos hle, hsub, ih]

theorem lt_of_charactersFrom? {cs rest : List Char} {c : Char} {n : Nat}
    (h : charactersFrom? cs n = some (c :: rest)) : n < byteLength cs := by
  fun_induction charactersFrom? cs n with
  | case1 cs =>
    obtain rfl := Option.some.inj h
    exact byteLength_pos (List.cons_ne_nil c rest)
  | case2 => cases h
  | case3 d cs n hle ih =>
    have := ih h
    rw [byteLength]
    omega
  | case4 => cases h

theorem slice?_append (pre middle post : List Char) :
    slice? (pre ++ (middle ++ post)) (byteLength pre) (byteLength pre + byteLength middle) =
      some middle := by
  have hnot : ¬ byteLength pre + byteLength middle < byteLength pre := by omega
  simp [slice?, charactersFrom?_append, hnot, Lines.charactersIn_append]

/-- The bytes of a character: one of the lower half, if the character is, or one of the upper half
and behind it such as begin no character. -/
structure Encodes (c : Char) (b : UInt8) (tail : List UInt8) : Prop where
  encode_eq : String.utf8EncodeChar c = b :: tail
  eq_ofNat_iff : ∀ d : Char, d.val.toNat < 0x80 → (b = .ofNat d.val.toNat ↔ c = d)
  tail_between : ∀ t ∈ tail, 0x80 ≤ t ∧ t < 0xC0

theorem eq_iff_val {c d : Char} : c = d ↔ c.val.toNat = d.val.toNat := by
  rw [UInt32.toNat_inj, Char.ext_iff]

theorem Encodes.of_upper {c : Char} {m : Nat} {tail : List UInt8} (hc : 0x80 ≤ c.val.toNat)
    (hm : 0xC0 ≤ m) (hlt : m < 0x100) (heq : String.utf8EncodeChar c = .ofNat m :: tail)
    (htail : ∀ t ∈ tail, ∃ n, 0x80 ≤ n ∧ n < 0xC0 ∧ t = .ofNat n) :
    Encodes c (.ofNat m) tail where
  encode_eq := heq
  eq_ofNat_iff d hd := by
    rw [Lines.ofNat_eq_iff hlt (by omega), eq_iff_val]
    omega
  tail_between t ht := by
    obtain ⟨n, hle, hbelow, rfl⟩ := htail t ht
    have hsize : n < 256 := by omega
    rw [UInt8.le_iff_toNat_le, UInt8.lt_iff_toNat_lt, UInt8.toNat_ofNat_of_lt' hsize]
    exact ⟨hle, hbelow⟩

theorem exists_encodes (c : Char) : ∃ b tail, Encodes c b tail := by
  have heq : String.utf8EncodeChar c = String.utf8EncodeChar c := rfl
  conv_rhs at heq => rw [String.utf8EncodeChar]
  by_cases hone : c.val.toNat ≤ 127
  · simp only [if_pos hone] at heq
    refine ⟨_, _, heq, fun d hd => ?_, by simp⟩
    rw [Lines.ofNat_eq_iff (by omega) (by omega), eq_iff_val]
  by_cases htwo : c.val.toNat ≤ 2047
  · simp only [if_neg hone, if_pos htwo] at heq
    refine ⟨_, _, .of_upper (by omega) ?_ ?_ heq ?_⟩
    · omega
    · omega
    · simp only [List.mem_singleton, forall_eq]
      exact ⟨_, by omega, by omega, rfl⟩
  by_cases hthree : c.val.toNat ≤ 65535
  · simp only [if_neg hone, if_neg htwo, if_pos hthree] at heq
    refine ⟨_, _, .of_upper (by omega) ?_ ?_ heq ?_⟩
    · omega
    · omega
    · simp only [List.forall_mem_cons, List.not_mem_nil, false_implies, implies_true, and_true]
      exact ⟨⟨_, by omega, by omega, rfl⟩, _, by omega, by omega, rfl⟩
  · simp only [if_neg hone, if_neg htwo, if_neg hthree] at heq
    refine ⟨_, _, .of_upper (by omega) ?_ ?_ heq ?_⟩
    · omega
    · omega
    · simp only [List.forall_mem_cons, List.not_mem_nil, false_implies, implies_true, and_true]
      exact ⟨⟨_, by omega, by omega, rfl⟩, ⟨_, by omega, by omega, rfl⟩, _, by omega, by omega, rfl⟩

end Text

/-! ## The end of a comment -/

namespace ByteGap

/-- Whether a byte may begin a character that ends a line. -/
def mayBreak (b : UInt8) : Bool := b == 0x0A || b == 0x0D || b == 0xE2

/-- The length in bytes of the line comment whose bytes begin at `body` and are among `bs`.  Its end
is looked for from byte `offset` of it on. -/
def lineLength? (text : String) (body : Nat) (bs : List UInt8) (offset : Nat) : Option Nat :=
  if bs.length < offset then none
  else
    match _hfound : (bs.drop offset).findIdx? mayBreak with
    | none => some bs.length
    | some i =>
      if bs[offset + i]? ≠ some 0xE2 then some (offset + i)
      else
        match charactersFrom? text.toList (body + (offset + i)) with
        | none => none
        | some cs =>
          if cs.head?.any isLineBreak then some (offset + i)
          else lineLength? text body bs (offset + i + 1)
termination_by bs.length - offset
decreasing_by
  obtain ⟨hi, -⟩ := List.findIdx?_eq_some_iff_getElem.1 _hfound
  rw [List.length_drop] at hi
  omega

theorem mayBreak_of_isLineBreak {c : Char} {b : UInt8} {tail : List UInt8} (h : Encodes c b tail)
    (hc : isLineBreak c = true) : mayBreak b = true := by
  have hencode := h.encode_eq
  simp only [isLineBreak, Bool.or_eq_true, beq_iff_eq] at hc
  obtain ((rfl | rfl) | rfl) | rfl := hc <;> rw [← (List.cons.inj hencode).1] <;> rfl

theorem isLineBreak_of_mayBreak {c : Char} {b : UInt8} {tail : List UInt8} (h : Encodes c b tail)
    (hb : mayBreak b = true) (hne : b ≠ 0xE2) : isLineBreak c = true := by
  simp only [mayBreak, Bool.or_eq_true, beq_iff_eq, hne, or_false] at hb
  rcases hb with hb | hb
  · rw [(h.eq_ofNat_iff '\n' (by decide)).1 hb]
    rfl
  · rw [(h.eq_ofNat_iff '\r' (by decide)).1 hb]
    rfl

theorem mayBreak_of_between {b : UInt8} (h : 0x80 ≤ b ∧ b < 0xC0) : mayBreak b = false := by
  simp only [mayBreak, Bool.or_eq_false_iff, beq_eq_false_iff_ne]
  refine ⟨⟨?_, ?_⟩, ?_⟩
  · rintro rfl
    exact absurd h.1 (by decide)
  · rintro rfl
    exact absurd h.1 (by decide)
  · rintro rfl
    exact absurd h.2 (by decide)

section Search

variable {text : String} {body offset : Nat} {pre post : List UInt8} {b : UInt8}

theorem lineLength?_of_none (hoffset : offset ≤ pre.length)
    (hpre : ∀ x ∈ pre.drop offset, mayBreak x = false) :
    lineLength? text body pre offset = some pre.length := by
  have hnone : (pre.drop offset).findIdx? mayBreak = none := List.findIdx?_eq_none_iff.2 hpre
  rw [lineLength?, if_neg (Nat.not_lt.2 hoffset)]
  split
  · rfl
  · rename_i hsome
    rw [hnone] at hsome
    cases hsome

theorem lineLength?_of_found (hoffset : offset ≤ pre.length)
    (hpre : ∀ x ∈ pre.drop offset, mayBreak x = false) (hb : mayBreak b = true) :
    lineLength? text body (pre ++ b :: post) offset =
      if b ≠ 0xE2 then some pre.length
      else
        match charactersFrom? text.toList (body + pre.length) with
        | none => none
        | some cs =>
          if cs.head?.any isLineBreak then some pre.length
          else lineLength? text body (pre ++ b :: post) (pre.length + 1) := by
  have hnone : (pre.drop offset).findIdx? mayBreak = none := List.findIdx?_eq_none_iff.2 hpre
  have hfound :
      ((pre ++ b :: post).drop offset).findIdx? mayBreak = some (pre.length - offset) := by
    rw [List.drop_append_of_le_length hoffset, List.findIdx?_append, hnone, List.findIdx?_cons, hb]
    simp
  have hlength : ¬ (pre ++ b :: post).length < offset := by
    rw [List.length_append]
    omega
  rw [lineLength?, if_neg hlength]
  split
  · rename_i h
    rw [hfound] at h
    cases h
  · rename_i i h
    rw [hfound] at h
    have hi : offset + i = pre.length := by
      rw [← Option.some.inj h]
      exact Nat.add_sub_cancel' hoffset
    rw [hi, List.getElem?_append_right (Nat.le_refl _), Nat.sub_self, List.getElem?_cons_zero]
    simp only [ne_eq, Option.some.injEq]

end Search

/-- The search has passed over `passed`, though perhaps not over all bytes of its last character;
nothing is found among those. -/
structure Searches (text : String) (before passed cs : List Char) (offset : Nat) : Prop where
  toList_eq : text.toList = before ++ (passed ++ cs)
  offset_le : offset ≤ (bytes passed).length
  unbroken : ∀ c ∈ passed, isLineBreak c = false
  skipped : ∀ x ∈ (bytes passed).drop offset, mayBreak x = false

namespace Searches

variable {text : String} {before passed cs : List Char} {offset : Nat} {c : Char} {b : UInt8}
  {tail : List UInt8}

theorem takeWhile_eq (h : Searches text before passed cs offset) :
    (passed ++ cs).takeWhile (!isLineBreak ·) = passed ++ cs.takeWhile (!isLineBreak ·) := by
  rw [List.takeWhile_append_of_pos]
  simpa using h.unbroken

theorem charactersFrom?_eq (h : Searches text before passed cs offset) :
    charactersFrom? text.toList (byteLength before + (bytes passed).length) = some cs := by
  rw [h.toList_eq, byteLength_bytes, ← byteLength_append, ← List.append_assoc,
    charactersFrom?_append]

theorem bytes_snoc (hc : Encodes c b tail) : bytes (passed ++ [c]) = bytes passed ++ b :: tail := by
  rw [bytes_append, ← hc.encode_eq]
  simp [bytes]

theorem not_mayBreak (hc : Encodes c b tail) : ∀ x ∈ tail, mayBreak x = false := fun x hx =>
  mayBreak_of_between (hc.tail_between x hx)

/-- One more character, none of whose bytes is looked for. -/
theorem pass (h : Searches text before passed (c :: cs) offset) (hc : Encodes c b tail)
    (hb : mayBreak b = false) : Searches text before (passed ++ [c]) cs offset where
  toList_eq := by
    rw [h.toList_eq]
    simp
  offset_le := by
    rw [bytes_snoc hc, List.length_append]
    exact Nat.le_add_right_of_le h.offset_le
  unbroken := by
    have hbreak : isLineBreak c = false := by
      by_contra hbreak
      rw [mayBreak_of_isLineBreak hc (Bool.not_eq_false _ ▸ hbreak)] at hb
      cases hb
    simpa [or_imp, forall_and] using And.intro h.unbroken hbreak
  skipped := by
    rw [bytes_snoc hc, List.drop_append_of_le_length h.offset_le]
    intro x hx
    rcases List.mem_append.1 hx with hx | hx
    · exact h.skipped x hx
    rcases List.mem_cons.1 hx with rfl | hx
    · exact hb
    · exact not_mayBreak hc x hx

/-- The first byte of a character has been found for nothing; the search goes on behind it. -/
theorem goOn (h : Searches text before passed (c :: cs) offset) (hc : Encodes c b tail)
    (hbreak : isLineBreak c = false) :
    Searches text before (passed ++ [c]) cs ((bytes passed).length + 1) where
  toList_eq := by
    rw [h.toList_eq]
    simp
  offset_le := by
    rw [bytes_snoc hc, List.length_append, List.length_cons]
    omega
  unbroken := by simpa [or_imp, forall_and] using And.intro h.unbroken hbreak
  skipped := by
    rw [bytes_snoc hc, List.drop_append, Nat.add_sub_cancel_left, List.drop_succ_cons,
      List.drop_zero, List.drop_of_length_le (Nat.le_succ _), List.nil_append]
    exact not_mayBreak hc

theorem lineLength?_eq (h : Searches text before passed cs offset) :
    lineLength? text (byteLength before) (bytes (passed ++ cs)) offset =
      some (byteLength ((passed ++ cs).takeWhile (!isLineBreak ·))) := by
  induction cs generalizing passed offset with
  | nil =>
    rw [h.takeWhile_eq, List.append_nil, lineLength?_of_none h.offset_le h.skipped,
      byteLength_bytes, List.takeWhile_nil, List.append_nil]
  | cons c cs ih =>
    obtain ⟨b, tail, hc⟩ := exists_encodes c
    have hmore : passed ++ c :: cs = (passed ++ [c]) ++ cs := by simp
    cases hb : mayBreak b with
    | false =>
      rw [hmore]
      exact ih (h.pass hc hb)
    | true =>
      have hbytes : bytes (passed ++ c :: cs) = bytes passed ++ b :: (tail ++ bytes cs) := by
        rw [hmore, bytes_append, bytes_snoc hc, List.append_assoc, List.cons_append]
      rw [hbytes, lineLength?_of_found h.offset_le h.skipped hb, h.charactersFrom?_eq]
      cases hbreak : isLineBreak c with
      | true => simp [h.takeWhile_eq, hbreak, byteLength_bytes]
      | false =>
        have hother : b = 0xE2 := by
          by_contra hne
          rw [isLineBreak_of_mayBreak hc hb hne] at hbreak
          cases hbreak
        rw [← hbytes, hmore, ← ih (h.goOn hc hbreak)]
        simp [hother, hbreak]

end Searches

/-- Where the text of a line comment begins, its length is found. -/
theorem lineLength?_of_toList {text : String} {before cs : List Char}
    (h : text.toList = before ++ cs) :
    lineLength? text (byteLength before) (bytes cs) 0 =
      some (byteLength (cs.takeWhile (!isLineBreak ·))) := by
  have hstart : Searches text before [] cs 0 :=
    { toList_eq := h, offset_le := Nat.zero_le _, unbroken := nofun, skipped := nofun }
  exact hstart.lineLength?_eq

def closing : List UInt8 := [0x2A, 0x2F]

theorem search_closing_skip {b : UInt8} (hb : b ≠ 0x2A) (bs : List UInt8) :
    search closing (b :: bs) = (search closing bs).map (· + 1) := by
  rw [search, if_neg]
  simpa [closing] using fun h => absurd h.symm hb

theorem search_closing_tail {tail : List UInt8} (h : ∀ x ∈ tail, 0x80 ≤ x ∧ x < 0xC0)
    (bs : List UInt8) :
    search closing (tail ++ bs) = (search closing bs).map (· + tail.length) := by
  induction tail with
  | nil => simp
  | cons b tail ih =>
    have hb : b ≠ 0x2A := by
      rintro rfl
      exact absurd (h _ List.mem_cons_self).1 (by decide)
    rw [List.cons_append, search_closing_skip hb, ih fun x hx => h x (List.mem_cons_of_mem b hx),
      Option.map_map]
    rfl

theorem search_closing_encoded {c : Char} (hc : c ≠ '*') (bs : List UInt8) :
    search closing (String.utf8EncodeChar c ++ bs) =
      (search closing bs).map (· + c.utf8Size) := by
  obtain ⟨b, tail, henc⟩ := exists_encodes c
  have hb : b ≠ 0x2A := fun hb => hc ((henc.eq_ofNat_iff '*' (by decide)).1 hb)
  rw [← String.length_utf8EncodeChar, henc.encode_eq, List.cons_append, search_closing_skip hb,
    search_closing_tail henc.tail_between, Option.map_map]
  rfl

theorem head?_bytes_eq_iff {d : Char} (hd : d.val.toNat < 0x80) {cs : List Char} :
    (bytes cs).head? = some (.ofNat d.val.toNat) ↔ cs.head? = some d := by
  cases cs with
  | nil => simp [bytes]
  | cons c cs =>
    obtain ⟨b, tail, henc⟩ := exists_encodes c
    rw [bytes, List.flatMap_cons, henc.encode_eq, List.cons_append, List.head?_cons,
      List.head?_cons, Option.some.injEq, Option.some.injEq]
    exact henc.eq_ofNat_iff d hd

/-- The bytes are found where the characters are. -/
theorem search_closing_bytes (cs : List Char) :
    search closing (bytes cs) = (closeComment? cs).map fun r => byteLength r.1 := by
  fun_induction closeComment? cs with
  | case1 => rfl
  | case2 cs => rfl
  | case3 c cs hclose ih =>
    have hbytes : bytes (c :: cs) = String.utf8EncodeChar c ++ bytes cs := List.flatMap_cons
    have hskip : search closing (bytes (c :: cs)) =
        (search closing (bytes cs)).map (· + c.utf8Size) := by
      by_cases hc : c = '*'
      · subst hc
        have hslash : (bytes cs).head? ≠ some 0x2F := fun hhead => by
          have hcs := (@head?_bytes_eq_iff '/' (by decide) cs).1 hhead
          obtain ⟨ds, rfl⟩ := List.head?_eq_some_iff.1 hcs
          exact hclose ds rfl rfl
        show search closing (0x2A :: bytes cs) = (search closing (bytes cs)).map (· + 1)
        rw [search, if_neg]
        cases hbs : bytes cs with
        | nil => simp [closing]
        | cons b bs =>
          have hb : b ≠ 0x2F := fun hb => hslash (by rw [hbs, hb, List.head?_cons])
          simp [closing, hb.symm]
      · rw [hbytes, search_closing_encoded hc]
    rw [hskip, ih, Option.map_map, Option.map_map]
    refine Option.map_congr fun r _ => ?_
    exact Nat.add_comm _ _

end ByteGap

/-! ## Gaps -/

/-- A gap, with the byte where it ends. -/
structure ByteGap where
  offset : Nat
  comments : List Comment := []
  lineBreak : Bool := false
  unclosed : Bool := false
deriving DecidableEq, Repr

def Gap.toByteGap (g : Gap) : ByteGap :=
  { offset := g.cursor.offset, comments := g.comments, lineBreak := g.lineBreak
    unclosed := g.unclosed }

namespace ByteGap

/-- What stands in front of a gap: its end or something that is passed over. -/
inductive Front where
  | stop (unclosed : Bool)
  | pass (length : Nat) (comment : Option Comment) (lineBreak : Bool)

def behind (comment : Option Comment) (lineBreak : Bool) (g : ByteGap) : ByteGap :=
  { g with comments := comment.toList ++ g.comments, lineBreak := lineBreak || g.lineBreak }

def commentAt (text : String) (kind : CommentKind) (start stop : Nat) (content : List Char) :
    Comment where
  kind
  text := String.ofList content
  location := { span := .between start stop, position := (Lines.ofText text).positionOf text start }

/-- The line comment whose mark begins at `start`. -/
def lineComment? (text : String) (start : Nat) : Option Front := do
  let body := start + 2
  let length ← lineLength? text body (← bytesFrom? text.toByteArray.data.toList body) 0
  let content ← slice? text.toList body (body + length)
  return .pass (2 + length) (some (commentAt text .line start (body + length) content)) false

/-- The block comment there, which may lack its end. -/
def blockComment? (text : String) (start : Nat) : Option Front := do
  let body := start + 2
  match search closing (← bytesFrom? text.toByteArray.data.toList body) with
  | none => return .stop true
  | some length =>
    let content ← slice? text.toList body (body + length)
    return .pass (4 + length) (some (commentAt text .block start (body + length + 2) content))
      (content.any isLineBreak)

def front? (text : String) (start : Nat) : Option Front :=
  let next := text.toByteArray.data.toList[start + 1]?
  match charactersFrom? text.toList start with
  | none => none
  | some [] => some (.stop false)
  | some (c :: _) =>
    if isLineBreak c then some (.pass c.utf8Size none true)
    else if isBlank c then some (.pass c.utf8Size none false)
    else if c = '/' ∧ next = some 0x2F then lineComment? text start
    else if c = '/' ∧ next = some 0x2A then blockComment? text start
    else some (.stop false)

theorem pos_of_lineComment? {text : String} {start length : Nat} {comment : Option Comment}
    {lineBreak : Bool} (h : lineComment? text start = some (.pass length comment lineBreak)) :
    0 < length := by
  simp only [lineComment?, Option.bind_eq_bind, Option.bind_eq_some_iff, Option.pure_def,
    Option.some.injEq, Front.pass.injEq] at h
  obtain ⟨_, _, _, _, _, _, rfl, -⟩ := h
  exact Nat.add_pos_left (by decide) _

theorem pos_of_blockComment? {text : String} {start length : Nat} {comment : Option Comment}
    {lineBreak : Bool} (h : blockComment? text start = some (.pass length comment lineBreak)) :
    0 < length := by
  simp only [blockComment?, Option.bind_eq_bind, Option.bind_eq_some_iff] at h
  obtain ⟨_, _, h⟩ := h
  split at h
  · cases h
  · simp only [Option.bind_eq_some_iff, Option.pure_def, Option.some.injEq,
      Front.pass.injEq] at h
    obtain ⟨_, _, rfl, -⟩ := h
    exact Nat.add_pos_left (by decide) _

theorem lt_of_front? {text : String} {start length : Nat} {comment : Option Comment}
    {lineBreak : Bool} (h : front? text start = some (.pass length comment lineBreak)) :
    start < byteLength text.toList ∧ 0 < length := by
  simp only [front?] at h
  split at h
  · cases h
  · cases h
  · rename_i c rest hfrom
    refine ⟨lt_of_charactersFrom? hfrom, ?_⟩
    have hpos := c.utf8Size_pos
    split at h
    · cases h
      exact hpos
    split at h
    · cases h
      exact hpos
    split at h
    · exact pos_of_lineComment? h
    split at h
    · exact pos_of_blockComment? h
    · cases h

def read? (text : String) (start : Nat) : Option ByteGap :=
  match _hfront : front? text start with
  | none => none
  | some (.stop unclosed) => some { offset := start, unclosed }
  | some (.pass length comment lineBreak) =>
    (read? text (start + length)).map (behind comment lineBreak)
termination_by byteLength text.toList - start
decreasing_by
  have hlt := lt_of_front? _hfront
  omega

section Front

variable {text : String} {before rest : List Char} {c : Char}

theorem bytes_toList (text : String) : text.toByteArray.data.toList = bytes text.toList :=
  Lines.toByteArray_toList text

theorem next_eq (h : text.toList = before ++ '/' :: rest) :
    text.toByteArray.data.toList[byteLength before + 1]? = (bytes rest).head? := by
  have hbytes : bytes ('/' :: rest) = 0x2F :: bytes rest := rfl
  rw [bytes_toList, h, bytes_append, hbytes, ← byteLength_bytes,
    List.getElem?_append_right (Nat.le_add_right _ 1), Nat.add_sub_cancel_left,
    List.getElem?_cons_succ, List.head?_eq_getElem?]

theorem charactersFrom?_of_toList (h : text.toList = before ++ rest) :
    charactersFrom? text.toList (byteLength before) = some rest := by
  rw [h, charactersFrom?_append]

theorem bytesFrom?_of_toList (h : text.toList = before ++ rest) :
    bytesFrom? text.toByteArray.data.toList (byteLength before) = some (bytes rest) := by
  rw [bytes_toList, h, bytes_append, ← byteLength_bytes, bytesFrom?_append]

theorem front?_of_nil (h : text.toList = before ++ []) :
    front? text (byteLength before) = some (.stop false) := by
  simp only [front?, charactersFrom?_of_toList h]

theorem front?_of_isLineBreak (h : text.toList = before ++ c :: rest)
    (hc : isLineBreak c = true) :
    front? text (byteLength before) = some (.pass c.utf8Size none true) := by
  simp only [front?, charactersFrom?_of_toList h, hc, if_true]

theorem front?_of_isBlank (h : text.toList = before ++ c :: rest) (hc : isLineBreak c = false)
    (hb : isBlank c = true) :
    front? text (byteLength before) = some (.pass c.utf8Size none false) := by
  simp only [front?, charactersFrom?_of_toList h, hc, hb, Bool.false_eq_true, if_false, if_true]

section Comments

variable {body : List Char}

theorem front?_of_slash (h : text.toList = before ++ '/' :: body) :
    front? text (byteLength before) =
      if body.head? = some '/' then lineComment? text (byteLength before)
      else if body.head? = some '*' then blockComment? text (byteLength before)
      else some (.stop false) := by
  have hbreak : isLineBreak '/' = false := rfl
  have hblank : isBlank '/' = false := rfl
  have hline : (bytes body).head? = some 0x2F ↔ body.head? = some '/' :=
    @head?_bytes_eq_iff '/' (by decide) body
  have hblock : (bytes body).head? = some 0x2A ↔ body.head? = some '*' :=
    @head?_bytes_eq_iff '*' (by decide) body
  simp only [front?, charactersFrom?_of_toList h, next_eq h, hbreak, hblank, hline, hblock,
    Bool.false_eq_true, if_false, true_and]

theorem toList_eq_behind_mark {a b : Char} (h : text.toList = before ++ a :: b :: body) :
    text.toList = (before ++ [a, b]) ++ body := by
  rw [h]
  simp

theorem lineComment?_of_takeWhile {content : List Char}
    (h : text.toList = before ++ '/' :: '/' :: body)
    (htake : body.takeWhile (!isLineBreak ·) = content) :
    let length := 2 + byteLength content
    lineComment? text (byteLength before) =
      some (.pass length
        (some (commentAt text .line (byteLength before) (byteLength before + length) content))
        false) := by
  intro length
  have hbody := toList_eq_behind_mark h
  have hoffset : byteLength (before ++ ['/', '/']) = byteLength before + 2 := byteLength_append _ _
  have hbytes := bytesFrom?_of_toList hbody
  have hlength := lineLength?_of_toList hbody
  have hcontent : slice? text.toList (byteLength before + 2)
      (byteLength before + 2 + byteLength content) = some content := by
    rw [hbody, ← List.takeWhile_append_dropWhile (p := (!isLineBreak ·)) (l := body), htake,
      ← hoffset]
    exact slice?_append _ _ _
  have hstop : byteLength before + 2 + byteLength content = byteLength before + length :=
    Nat.add_assoc _ _ _
  rw [hstop] at hcontent
  rw [hoffset] at hbytes hlength
  simp only [lineComment?, hbytes, hlength, htake, hstop, hcontent, length, Option.bind_eq_bind,
    Option.bind_some, Option.pure_def]

theorem blockComment?_of_none (h : text.toList = before ++ '/' :: '*' :: body)
    (hclose : closeComment? body = none) :
    blockComment? text (byteLength before) = some (.stop true) := by
  have hbody := toList_eq_behind_mark h
  have hoffset : byteLength (before ++ ['/', '*']) = byteLength before + 2 := byteLength_append _ _
  have hbytes := bytesFrom?_of_toList hbody
  rw [hoffset] at hbytes
  simp only [blockComment?, hbytes, search_closing_bytes, hclose, Option.map_none,
    Option.bind_eq_bind, Option.bind_some, Option.pure_def]

theorem blockComment?_of_some {content rest : List Char}
    (h : text.toList = before ++ '/' :: '*' :: body)
    (hclose : closeComment? body = some (content, rest)) :
    let length := 4 + byteLength content
    blockComment? text (byteLength before) =
      some (.pass length
        (some (commentAt text .block (byteLength before) (byteLength before + length) content))
        (content.any isLineBreak)) := by
  intro length
  have hbody := toList_eq_behind_mark h
  have hoffset : byteLength (before ++ ['/', '*']) = byteLength before + 2 := byteLength_append _ _
  have hbytes := bytesFrom?_of_toList hbody
  have hcontent : slice? text.toList (byteLength before + 2)
      (byteLength before + 2 + byteLength content) = some content := by
    rw [hbody, eq_of_closeComment? hclose, ← hoffset]
    exact slice?_append _ _ _
  have hstop : byteLength before + 2 + byteLength content + 2 = byteLength before + length := by
    omega
  rw [hoffset] at hbytes
  simp only [blockComment?, hbytes, search_closing_bytes, hclose, Option.map_some, hcontent,
    hstop, length, Option.bind_eq_bind, Option.bind_some, Option.pure_def]

end Comments

theorem front?_of_other (h : text.toList = before ++ c :: rest) (hbreak : isLineBreak c = false)
    (hblank : isBlank c = false)
    (hmark : c = '/' → rest.head? ≠ some '/' ∧ rest.head? ≠ some '*') :
    front? text (byteLength before) = some (.stop false) := by
  by_cases hc : c = '/'
  · subst hc
    obtain ⟨hline, hblock⟩ := hmark rfl
    rw [front?_of_slash h, if_neg hline, if_neg hblock]
  · simp only [front?, charactersFrom?_of_toList h, hbreak, hblank, hc, Bool.false_eq_true,
      if_false, false_and]

end Front

variable {text : String}

theorem read?_of_stop {start : Nat} {unclosed : Bool}
    (h : front? text start = some (.stop unclosed)) :
    read? text start = some { offset := start, unclosed } := by
  rw [read?]
  split
  · rename_i hfront
    rw [h] at hfront
    cases hfront
  · rename_i hfront
    rw [h] at hfront
    cases hfront
    rfl
  · rename_i hfront
    rw [h] at hfront
    cases hfront

theorem read?_of_pass {start length : Nat} {comment : Option Comment} {lineBreak : Bool}
    (h : front? text start = some (.pass length comment lineBreak)) :
    read? text start = (read? text (start + length)).map (behind comment lineBreak) := by
  rw [read?]
  split
  · rename_i hfront
    rw [h] at hfront
    cases hfront
  · rename_i hfront
    rw [h] at hfront
    cases hfront
  · rename_i hfront
    rw [h] at hfront
    cases hfront
    rfl

section Reached

variable {c : Cursor}

theorem exists_before {rest : List Char} (h : c.Reached text) (hrest : c.rest = rest) :
    ∃ before, text.toList = before ++ rest ∧ c.offset = byteLength before := by
  obtain ⟨head, line, hline⟩ := h
  refine ⟨head ++ line, ?_, ?_⟩
  · rw [hline.text, List.append_assoc, hrest]
  · rw [hline.offset, byteLength_append]

/-- Passing over what stands in front of a cursor. -/
theorem read?_of_front {passed rest : List Char} {n length : Nat} {comment : Option Comment}
    {lineBreak : Bool} (hrest : c.rest = passed ++ rest) (hn : passed.length = n)
    (hlength : byteLength passed = length)
    (hfront : front? text c.offset = some (.pass length comment lineBreak)) :
    read? text c.offset = (read? text (c.move n).offset).map (behind comment lineBreak) := by
  rw [read?_of_pass hfront, ← hn, Cursor.offset_move_length hrest, hlength]

theorem commentAt_eq (h : c.Reached text) (kind : CommentKind) {n length : Nat}
    (content : List Char) (hmove : (c.move n).offset = c.offset + length) :
    commentAt text kind c.offset (c.offset + length) content =
      { kind, text := String.ofList content, location := c.locate (c.move n) } := by
  simp only [commentAt, Cursor.locate, h.positionOf_eq, hmove]

theorem read?_of_line {body content : List Char} (h : c.Reached text)
    (hrest : c.rest = '/' :: '/' :: body) (htake : body.takeWhile (!isLineBreak ·) = content) :
    let after := c.move (2 + content.length)
    let comment : Comment :=
      { kind := .line, text := String.ofList content, location := c.locate after }
    read? text c.offset = (read? text after.offset).map (behind (some comment) false) := by
  intro after
  obtain ⟨before, htext, hoffset⟩ := exists_before h hrest
  have hpassed : c.rest = ('/' :: '/' :: content) ++ body.dropWhile (!isLineBreak ·) := by
    rw [hrest, List.cons_append, List.cons_append, ← htake, List.takeWhile_append_dropWhile]
  have hn : ('/' :: '/' :: content).length = 2 + content.length := Nat.add_comm content.length 2
  have hlength : byteLength ('/' :: '/' :: content) = 2 + byteLength content :=
    (Nat.add_assoc 1 1 (byteLength content)).symm
  have hmove : after.offset = c.offset + (2 + byteLength content) := by
    rw [← hlength, ← Cursor.offset_move_length hpassed, hn]
  refine read?_of_front hpassed hn hlength ?_
  have hcomment := commentAt_eq h .line content hmove
  rw [hoffset, front?_of_slash htext, List.head?_cons, if_pos rfl,
    lineComment?_of_takeWhile htext htake, ← hoffset, hcomment]

theorem read?_of_block {body content rest : List Char} (h : c.Reached text)
    (hrest : c.rest = '/' :: '*' :: body) (hclose : closeComment? body = some (content, rest)) :
    let after := c.move (4 + content.length)
    let comment : Comment :=
      { kind := .block, text := String.ofList content, location := c.locate after }
    read? text c.offset =
      (read? text after.offset).map (behind (some comment) (content.any isLineBreak)) := by
  intro after
  obtain ⟨before, htext, hoffset⟩ := exists_before h hrest
  have hpassed : c.rest = ('/' :: '*' :: (content ++ ['*', '/'])) ++ rest := by
    rw [hrest, eq_of_closeComment? hclose]
    simp
  have hn : ('/' :: '*' :: (content ++ ['*', '/'])).length = 4 + content.length := by
    rw [List.length_cons, List.length_cons, List.length_append, Nat.add_comm 4]
    rfl
  have hlength : byteLength ('/' :: '*' :: (content ++ ['*', '/'])) = 4 + byteLength content := by
    rw [byteLength, byteLength, byteLength_append]
    show 1 + (1 + (byteLength content + 2)) = 4 + byteLength content
    omega
  have hmove : after.offset = c.offset + (4 + byteLength content) := by
    rw [← hlength, ← Cursor.offset_move_length hpassed, hn]
  refine read?_of_front hpassed hn hlength ?_
  have hcomment := commentAt_eq h .block content hmove
  rw [hoffset, front?_of_slash htext, List.head?_cons, if_neg (by decide), if_pos rfl,
    blockComment?_of_some htext hclose, ← hoffset, hcomment]

end Reached

/-- Reading a gap by bytes never fails and reads the gap of the cursor there. -/
theorem read?_eq {c : Cursor} (h : c.Reached text) :
    read? text c.offset = some (Gap.read c).toByteGap := by
  fun_induction Gap.read c with
  | case1 c body hrest content after ih =>
    rw [read?_of_line h hrest rfl, ih (h.move _)]
    rfl
  | case2 c body hrest content rest hclose after ih =>
    rw [read?_of_block h hrest hclose, ih (h.move _)]
    rfl
  | case3 c body hrest hclose =>
    obtain ⟨before, htext, hoffset⟩ := exists_before h hrest
    refine read?_of_stop ?_
    rw [hoffset, front?_of_slash htext, List.head?_cons, if_neg (by decide), if_pos rfl,
      blockComment?_of_none htext hclose]
  | case4 c ch rest _ _ hrest hbreak _ ih =>
    obtain ⟨before, htext, hoffset⟩ := exists_before h hrest
    have hfront : front? text c.offset = some (.pass ch.utf8Size none true) := by
      rw [hoffset, front?_of_isLineBreak htext hbreak]
    have hread := @read?_of_front text c [ch] rest 1 _ _ _ hrest rfl rfl hfront
    rw [hread]
    exact congrArg (Option.map (behind none true)) (ih (h.move 1))
  | case5 c ch rest _ _ hrest hbreak hblank ih =>
    obtain ⟨before, htext, hoffset⟩ := exists_before h hrest
    have hfront : front? text c.offset = some (.pass ch.utf8Size none false) := by
      rw [hoffset, front?_of_isBlank htext (Bool.not_eq_true _ ▸ hbreak) hblank]
    have hread := @read?_of_front text c [ch] rest 1 _ _ _ hrest rfl rfl hfront
    rw [hread]
    exact congrArg (Option.map (behind none false)) (ih (h.move 1))
  | case6 c ch rest hline hblock hrest hbreak hblank =>
    obtain ⟨before, htext, hoffset⟩ := exists_before h hrest
    refine read?_of_stop ?_
    rw [hoffset]
    refine front?_of_other htext (Bool.not_eq_true _ ▸ hbreak) (Bool.not_eq_true _ ▸ hblank) ?_
    intro hslash
    simp only [ne_eq, List.head?_eq_some_iff, not_exists]
    exact ⟨fun body hbody => hline body hslash hbody, fun body hbody => hblock body hslash hbody⟩
  | case7 c hrest =>
    obtain ⟨before, htext, hoffset⟩ := exists_before h hrest
    refine read?_of_stop ?_
    rw [hoffset, front?_of_nil htext]

/-- So it is in front of every token of a text. -/
theorem read?_after [IdentifierTable] (text : String) (n : Nat) :
    let l := (Lexer.ofText text).after n
    read? text l.cursor.offset = some (Gap.read l.cursor).toByteGap :=
  read?_eq (Lexer.reached_after text n)

end ByteGap
end ScriptOutline
