import Zohara.Process

/-!
# Which files parse_elf accepts

The checks of the parser stand in one list, in the order in which the scan makes them: those of the
ELF header, and then two for each program header, that it lies within the file and that there is
still room for a segment. The parser answers with the first check that fails. A file that passes all
of them is accepted, and its segments are the loadable headers in file order.

A slice has fewer than 2^63 bytes. The position of a program header can then exceed 64 bits only
for the first one: a later one is looked at only when the one before it lies within the file.
-/
namespace Zohara.ElfImage
open ByteMemory List Option Nat

section
variable {ε : Type} {c : Bool × ε} {cs ds : List (Bool × ε)} {e : ε}

/-- The error of the first check that fails. -/
def firstFailure (checks : List (Bool × ε)) : Option ε :=
  (checks.find? fun c => !c.1).map Prod.snd

theorem firstFailure_pass (h : c.1 = true) : firstFailure (c::cs) = firstFailure cs := by
  simp [firstFailure, h]

theorem firstFailure_fail (h : c.1 = false) : firstFailure (c::cs) = some c.2 := by
  simp [firstFailure, h]

theorem firstFailure_append : firstFailure (cs++ds) = (firstFailure cs).or (firstFailure ds) := by
  simp [firstFailure, find?_append, map_or]

theorem firstFailure_eq_none : firstFailure cs = none ↔ ∀ c ∈ cs, c.1 = true := by
  simp [firstFailure]

end

/-! ## The file -/

def phoff (elf : List UInt8) : ℕ := field elf 0x20 8

def phentsize (elf : List UInt8) : ℕ := field elf 0x36 2

def phnum (elf : List UInt8) : ℕ := field elf 0x38 2

/-- Where the `i`-th program header begins. -/
def phdr (elf : List UInt8) (i : ℕ) : ℕ := phoff elf+i*phentsize elf

def IsLoad (elf : List UInt8) (i : ℕ) : Prop := field elf (phdr elf i) 4 = 1

instance (elf : List UInt8) : DecidablePred (IsLoad elf) := fun _ => inferInstanceAs (Decidable (_ = _))

/-- The loadable headers among those with the given numbers. -/
def loads (elf : List UInt8) (is : List ℕ) : List ℕ := is.filter fun i => decide (IsLoad elf i)

def headerChecks (elf : List UInt8) : List (Bool × ElfError) :=
  [(decide (64 ≤ elf.length),.badMagic),(decide (elf.take 4 = [0x7F,0x45,0x4C,0x46]),.badMagic),
    (decide (elf.getD 4 0 = 2),.notElf64),(decide (field elf 0x10 2 = 2),.notExecutable),
    (decide (field elf 0x12 2 = 0x3E),.badMachine),(decide (56 ≤ phentsize elf),.badPhdr)]

def phdrChecks (elf : List UInt8) (i : ℕ) : List (Bool × ElfError) :=
  [(decide (phdr elf i+56 ≤ elf.length),.badPhdr),
    (decide (IsLoad elf i → (loads elf (List.range i)).length < maxSegments),.tooManySegments)]

def checks (elf : List UInt8) : List (Bool × ElfError) :=
  headerChecks elf++(List.range (phnum elf)).flatMap (phdrChecks elf)

/-- The files that the parser accepts. -/
structure Grammar (elf : List UInt8) : Prop where
  header : 64 ≤ elf.length
  magic : elf.take 4 = [0x7F,0x45,0x4C,0x46]
  elf64 : elf.getD 4 0 = 2
  executable : field elf 0x10 2 = 2
  machine : field elf 0x12 2 = 0x3E
  entries : 56 ≤ phentsize elf
  inside : ∀ i < phnum elf, phdr elf i+56 ≤ elf.length
  room : (loads elf (List.range (phnum elf))).length ≤ maxSegments

/-- The segments of an accepted file that was read to `base`. -/
def segmentsFrom (elf : List UInt8) (base : ℕ) (is : List ℕ) : List ElfSegment :=
  (loads elf is).map fun i => loadSegment elf base (phdr elf i)

def imageOf (elf : List UInt8) (base : ℕ) : Image :=
  ⟨field elf 0x18 8,segmentsFrom elf base (List.range (phnum elf))⟩

section
variable {elf : List UInt8} {base i n : ℕ}

theorem loads_succ : loads elf (List.range (i+1)) =
    loads elf (List.range i)++if IsLoad elf i then [i] else [] := by
  unfold loads
  rw [range_succ, filter_append]
  simp [filter_cons]

theorem phdr_succ : phdr elf (i+1) = phdr elf i+phentsize elf := by
  unfold phdr
  rw [succ_mul, ← add_assoc]

theorem phentsize_lt (elf : List UInt8) : phentsize elf < 2^16 := field_lt elf 0x36 2

theorem phoff_lt (elf : List UInt8) : phoff elf < 2^64 := field_lt elf 0x20 8

/-- There is room for every loadable header if there is room for the last one. -/
theorem forall_room_iff : (∀ i < n, IsLoad elf i → (loads elf (List.range i)).length < maxSegments) ↔
    (loads elf (List.range n)).length ≤ maxSegments := by
  induction n with
  | zero => simp [loads]
  | succ n ih =>
    rw [forall_lt_succ_right, ih, loads_succ, length_append]
    split_ifs with hload
    · rw [length_singleton]
      constructor
      · intro h
        exact h.2 hload
      · intro h
        exact ⟨by omega,fun _ => h⟩
    · rw [length_nil, add_zero]
      exact ⟨fun h => h.1,fun h => ⟨h,fun hl => absurd hl hload⟩⟩

theorem firstFailure_checks_eq_none : firstFailure (checks elf) = none ↔ Grammar elf := by
  rw [firstFailure_eq_none, checks]
  simp only [forall_mem_append, forall_mem_flatMap, headerChecks, phdrChecks,
    forall_mem_cons, not_mem_nil, false_implies, implies_true, and_true,
    decide_eq_true_eq, mem_range]
  constructor
  · rintro ⟨⟨h1,h2,h3,h4,h5,h6⟩,hall⟩
    exact ⟨h1,h2,h3,h4,h5,h6,fun i hi => (hall i hi).1,
      forall_room_iff.mp fun i hi => (hall i hi).2⟩
  · rintro ⟨h1,h2,h3,h4,h5,h6,hinside,hroom⟩
    exact ⟨⟨h1,h2,h3,h4,h5,h6⟩,fun i hi => ⟨hinside i hi,forall_room_iff.mpr hroom i hi⟩⟩

end

/-! ## The parser -/

/-- The answer that the checks give. -/
def answerOf {α : Type} (failure : Option ElfError) (a : α) : Except ElfError α :=
  match failure with
  | some e => .error e
  | none => .ok a

section
variable {elf : List UInt8} {base i n : ℕ}

/-- The next header does not wrap around when this one lies within the file. -/
theorem phdr_next (hlen : elf.length < 2^63) (h : phdr elf i+56 ≤ elf.length) :
    phdr elf (i+1)+56 < 2^64 := by
  have hsize := phentsize_lt elf
  rw [phdr_succ]
  omega

theorem parsePhdrs_eq (base n : ℕ) (hlen : elf.length < 2^63) (hstart : phdr elf i+56 < 2^64) :
    parsePhdrs elf base (phoff elf) (phentsize elf) n i (segmentsFrom elf base (List.range i)) =
      some (answerOf (firstFailure ((List.range' i n).flatMap (phdrChecks elf)))
        (segmentsFrom elf base (List.range (i+n)))) := by
  induction n generalizing i with
  | zero => rfl
  | succ n ih =>
    have hoff : (phoff elf+i*phentsize elf)%2^64 = phdr elf i := mod_eq_of_lt (by
      unfold phdr at hstart
      omega)
    have hsum : (phdr elf i+56)%2^64 = phdr elf i+56 := mod_eq_of_lt hstart
    have hsegs : (segmentsFrom elf base (List.range i)).length =
        (loads elf (List.range i)).length := length_map _
    rw [parsePhdrs, range'_succ, flatMap_cons]
    simp only [hoff, hsum, phdrChecks, cons_append, nil_append]
    by_cases hin : phdr elf i+56 ≤ elf.length
    · rw [if_neg hin.not_gt, if_neg hin.not_gt,
        firstFailure_pass (decide_eq_true hin)]
      have hrest := ih (phdr_next hlen hin)
      rw [show i+(n+1) = i+1+n by omega]
      by_cases hload : IsLoad elf i
      · have htype : ¬field elf (phdr elf i) 4 ≠ 1 := not_not.mpr hload
        rw [if_neg htype, hsegs]
        by_cases hroom : (loads elf (List.range i)).length < maxSegments
        · rw [if_neg hroom.not_ge, firstFailure_pass (decide_eq_true fun _ => hroom)]
          unfold segmentsFrom at hrest ⊢
          rw [loads_succ, if_pos hload, map_append] at hrest
          exact hrest
        · rw [if_pos (not_lt.mp hroom),
            firstFailure_fail (decide_eq_false fun h => hroom (h hload))]
          rfl
      · have htype : field elf (phdr elf i) 4 ≠ 1 := hload
        rw [if_pos htype, firstFailure_pass (decide_eq_true fun h => absurd h hload)]
        unfold segmentsFrom at hrest ⊢
        rw [loads_succ, if_neg hload, append_nil] at hrest
        exact hrest
    · rw [if_pos (not_le.mp hin), firstFailure_fail (decide_eq_false hin)]
      rfl

theorem parseElf_header : parseElf elf base =
    match firstFailure (headerChecks elf) with
    | some e => some (.error e)
    | none => (parsePhdrs elf base (phoff elf) (phentsize elf) (phnum elf) 0 []).map
        fun answer => answer.map fun segments => ⟨field elf 0x18 8,segments⟩ := by
  unfold parseElf headerChecks
  by_cases h1 : 64 ≤ elf.length
  · rw [if_neg h1.not_gt, firstFailure_pass (decide_eq_true h1)]
    by_cases h2 : elf.take 4 = [0x7F,0x45,0x4C,0x46]
    · rw [if_neg (not_not.mpr h2), firstFailure_pass (decide_eq_true h2)]
      by_cases h3 : elf.getD 4 0 = 2
      · rw [if_neg (not_not.mpr h3), firstFailure_pass (decide_eq_true h3)]
        by_cases h4 : field elf 0x10 2 = 2
        · rw [if_neg (not_not.mpr h4), firstFailure_pass (decide_eq_true h4)]
          by_cases h5 : field elf 0x12 2 = 0x3E
          · rw [if_neg (not_not.mpr h5), firstFailure_pass (decide_eq_true h5)]
            unfold phentsize
            by_cases h6 : 56 ≤ field elf 0x36 2
            · rw [if_neg h6.not_gt, firstFailure_pass (decide_eq_true h6)]
              rfl
            · rw [if_pos (not_le.mp h6), firstFailure_fail (decide_eq_false h6)]
          · rw [if_pos h5, firstFailure_fail (decide_eq_false h5)]
        · rw [if_pos h4, firstFailure_fail (decide_eq_false h4)]
      · rw [if_pos h3, firstFailure_fail (decide_eq_false h3)]
    · rw [if_pos h2, firstFailure_fail (decide_eq_false h2)]
  · rw [if_pos (not_le.mp h1), firstFailure_fail (decide_eq_false h1)]

/-- The parser answers with the first check that fails, unless the position of the first program
header wraps around. -/
theorem parseElf_eq (hlen : elf.length < 2^63) (hfit : firstFailure (headerChecks elf) = none →
    0 < phnum elf → phoff elf+56 < 2^64) :
    parseElf elf base = some (answerOf (firstFailure (checks elf)) (imageOf elf base)) := by
  rw [parseElf_header, checks, firstFailure_append, range_eq_range']
  cases hhead : firstFailure (headerChecks elf) with
  | some e => rfl
  | none =>
    rw [none_or]
    cases hnum : phnum elf with
    | zero =>
      unfold imageOf
      rw [hnum]
      rfl
    | succ n =>
      have hstart : phdr elf 0+56 < 2^64 := by
        unfold phdr
        rw [zero_mul]
        exact hfit hhead (by omega)
      have hscan := parsePhdrs_eq base (n+1) hlen hstart
      dsimp only
      rw [show ([] : List ElfSegment) = segmentsFrom elf base (List.range 0) from rfl, hscan,
        zero_add]
      unfold imageOf
      rw [hnum]
      cases firstFailure ((List.range' 0 (n+1)).flatMap (phdrChecks elf)) <;> rfl

theorem length_of_header (h : firstFailure (headerChecks elf) = none) : 64 ≤ elf.length := by
  have hmem : (decide (64 ≤ elf.length),ElfError.badMagic) ∈ headerChecks elf :=
    mem_cons_self
  exact of_decide_eq_true (firstFailure_eq_none.mp h _ hmem)

/-- A program header table in the last bytes of the address space passes the bounds test, whose sum
wraps around, and the slice after it stops the kernel. -/
theorem parseElf_stops (hlen : elf.length < 2^63) (hhead : firstFailure (headerChecks elf) = none)
    (hnum : 0 < phnum elf) (hover : 2^64 ≤ phoff elf+56) : parseElf elf base = none := by
  have h64 := length_of_header hhead
  have hoff := phoff_lt elf
  obtain ⟨n,hn⟩ := exists_eq_succ_of_ne_zero hnum.ne'
  rw [parseElf_header, hhead]
  dsimp only
  rw [hn, succ_eq_add_one, parsePhdrs, zero_mul, add_zero]
  simp only [add_zero, mod_eq_of_lt hoff]
  rw [if_neg (by omega), if_pos (by omega), map_none]

/-- The header checks hold, and a table of at least one entry begins in the last bytes. -/
def Wraps (elf : List UInt8) : Prop :=
  firstFailure (headerChecks elf) = none ∧ 0 < phnum elf ∧ 2^64 ≤ phoff elf+56

theorem parseElf_of_not_wraps (hlen : elf.length < 2^63) (h : ¬Wraps elf) :
    parseElf elf base = some (answerOf (firstFailure (checks elf)) (imageOf elf base)) := by
  refine parseElf_eq hlen fun hhead hnum => ?_
  by_contra hover
  exact h ⟨hhead,hnum,not_lt.mp hover⟩

theorem Grammar.not_wraps (hlen : elf.length < 2^63) (g : Grammar elf) : ¬Wraps elf := by
  rintro ⟨-,hnum,hover⟩
  have hin := g.inside 0 hnum
  unfold phdr at hin
  omega

theorem parseElf_ok_iff (hlen : elf.length < 2^63) {image : Image} :
    parseElf elf base = some (.ok image) ↔ Grammar elf ∧ image = imageOf elf base := by
  by_cases hw : Wraps elf
  · rw [parseElf_stops hlen hw.1 hw.2.1 hw.2.2]
    constructor
    · intro h
      cases h
    · intro h
      exact absurd hw (h.1.not_wraps hlen)
  · rw [parseElf_of_not_wraps hlen hw, ← firstFailure_checks_eq_none]
    cases firstFailure (checks elf) with
    | none => simp [answerOf, eq_comm]
    | some e => simp [answerOf]

end

/-! ## What the accepted segments say -/

/-- A program header without its type and alignment. -/
structure Phdr where
  vaddr : ℕ
  paddr : ℕ
  offset : ℕ
  filesz : ℕ
  memsz : ℕ
  flags : BitVec 32
  deriving DecidableEq, Repr

def phdrAt (elf : List UInt8) (off : ℕ) : Phdr where
  vaddr := field elf (off+16) 8
  paddr := field elf (off+24) 8
  offset := pOffset elf off
  filesz := field elf (off+32) 8
  memsz := field elf (off+40) 8
  flags := BitVec.ofNat 32 (field elf (off+4) 4)

/-- The header that a segment of a file at `base` was read from. -/
def ElfSegment.header (base : ℕ) (seg : ElfSegment) : Phdr :=
  ⟨seg.vaddr,seg.paddr,fileOffset base seg,seg.filesz,seg.memsz,seg.flags⟩

/-- The contents lie within a file of `len` bytes, fit in the memory, and the end does not wrap. -/
structure Phdr.Safe (len : ℕ) (p : Phdr) : Prop where
  inFile : p.offset+p.filesz ≤ len
  sizes : p.filesz ≤ p.memsz
  fits : p.vaddr+p.memsz < 2^64

instance (len : ℕ) (p : Phdr) : Decidable (p.Safe len) :=
  decidable_of_iff (p.offset+p.filesz ≤ len ∧ p.filesz ≤ p.memsz ∧ p.vaddr+p.memsz < 2^64)
    ⟨fun h => ⟨h.1,h.2.1,h.2.2⟩,fun h => ⟨h.1,h.2,h.3⟩⟩

section
variable {elf : List UInt8} {base : ℕ}

theorem header_loadSegment (hb : base < 2^64) (off : ℕ) :
    (loadSegment elf base off).header base = phdrAt elf off := by
  unfold ElfSegment.header
  rw [fileOffset_eq hb]
  rfl

theorem headers_imageOf (hb : base < 2^64) : (imageOf elf base).segments.map (·.header base) =
    (loads elf (List.range (phnum elf))).map fun i => phdrAt elf (phdr elf i) := by
  unfold imageOf segmentsFrom
  rw [List.map_map]
  exact map_congr_left fun i _ => header_loadSegment hb _

theorem mem_loads {i n : ℕ} : i ∈ loads elf (List.range n) ↔ i < n ∧ IsLoad elf i := by
  simp [loads]

theorem sliceOf_safe {seg : ElfSegment} (hlen : elf.length < 2^63)
    (h : (seg.header base).Safe elf.length) :
    ∀ n ≤ seg.filesz, Process.sliceOf elf (fileOffset base seg) n ≠ none := by
  intro n hn
  have hin : fileOffset base seg+seg.filesz ≤ elf.length := h.inFile
  unfold Process.sliceOf
  dsimp only
  rw [mod_eq_of_lt (by omega), if_neg (by omega)]
  exact some_ne_none _

/-- What the builder writes is read back: one segment, whose bytes in the file are the program. -/
theorem build_then_parse {code : List UInt8} {loadAddr : ℕ} (hc : code.length < 2^63)
    (ha : loadAddr < 2^64) (hb : base < 2^64) : ∃ seg,
    parseElf (buildFlatElf code loadAddr) base = some (.ok ⟨loadAddr,[seg]⟩) ∧
      seg.vaddr = loadAddr ∧ seg.paddr = loadAddr ∧ seg.filesz = code.length ∧
      seg.memsz = code.length ∧ seg.flags = 7 ∧
      ((buildFlatElf code loadAddr).drop (fileOffset base seg)).take seg.filesz = code := by
  refine ⟨_,parseElf_buildFlatElf code base ha hc,rfl,rfl,rfl,rfl,rfl,?_⟩
  have hoff : fileOffset base ⟨loadAddr,loadAddr,(base+120)%2^64,code.length,code.length,7⟩ = 120 := by
    unfold fileOffset
    dsimp only
    omega
  rw [hoff, drop_buildFlatElf]
  exact take_length

theorem build_then_parse_nop : ∃ seg,
    parseElf (buildFlatElf [0x90] 0x400000) 0x1000 = some (.ok ⟨0x400000,[seg]⟩) ∧
      seg.vaddr = 0x400000 ∧ seg.paddr = 0x400000 ∧ seg.filesz = 1 ∧ seg.memsz = 1 ∧ seg.flags = 7 ∧
      ((buildFlatElf [0x90] 0x400000).drop (fileOffset 0x1000 seg)).take seg.filesz = [0x90] :=
  build_then_parse (by decide) (by decide) (by decide)

/-- The parser accepts the files of the grammar and no others. It answers with their entry point and
their loadable headers in file order, or with the error of the first check that fails. -/
theorem parseElf_accepts_grammar (hlen : elf.length < 2^63) (hb : base < 2^64)
    (hfit : 64 ≤ elf.length → phoff elf+phnum elf*phentsize elf+56 < 2^64) :
    ((∃ image, parseElf elf base = some (.ok image)) ↔ Grammar elf) ∧
      (∀ image, parseElf elf base = some (.ok image) → image.entryPoint = field elf 0x18 8 ∧
        image.segments.map (·.header base) =
          (loads elf (List.range (phnum elf))).map fun i => phdrAt elf (phdr elf i)) ∧
      (¬Grammar elf → ∃ e, firstFailure (checks elf) = some e ∧
        parseElf elf base = some (.error e)) := by
  have hw : ¬Wraps elf := by
    rintro ⟨hhead,-,hover⟩
    have hsum := hfit (length_of_header hhead)
    omega
  refine ⟨?_,?_,?_⟩
  · simp only [parseElf_ok_iff hlen, exists_and_left, exists_eq, and_true]
  · intro image h
    obtain ⟨-,rfl⟩ := (parseElf_ok_iff hlen).mp h
    exact ⟨rfl,headers_imageOf hb⟩
  · intro hg
    rw [← firstFailure_checks_eq_none] at hg
    obtain ⟨e,he⟩ := ne_none_iff_exists'.mp hg
    refine ⟨e,he,?_⟩
    rw [parseElf_of_not_wraps hlen hw, he]
    rfl

theorem flat_in_grammar : Grammar (buildFlatElf [0x90] 0x400000) :=
  (parseElf_accepts_grammar (by decide) (by decide : 0 < 2^64) (fun _ => by decide)).1.mp
    ⟨_,parseElf_buildFlatElf [0x90] 0 (by decide) (by decide)⟩

/-- The accepted segments are safe to load exactly when the loadable headers of the file are: the
parser itself tests none of their sizes. Then no slice that create_process takes leaves the file. -/
theorem segments_safe_iff (hlen : elf.length < 2^63) (hb : base < 2^64) :
    ((∀ image, parseElf elf base = some (.ok image) → ∀ seg ∈ image.segments,
        (seg.header base).Safe elf.length ∧
          ∀ n ≤ seg.filesz, Process.sliceOf elf (fileOffset base seg) n ≠ none) ↔
      (Grammar elf → ∀ i < phnum elf, IsLoad elf i →
        (phdrAt elf (phdr elf i)).Safe elf.length)) := by
  constructor
  · intro h g i hi hload
    rw [← header_loadSegment hb]
    refine (h _ ((parseElf_ok_iff hlen).mpr ⟨g,rfl⟩) _ ?_).1
    exact mem_map_of_mem (mem_loads.mpr ⟨hi,hload⟩)
  · intro h image hp seg hseg
    obtain ⟨g,rfl⟩ := (parseElf_ok_iff hlen).mp hp
    obtain ⟨i,hi,rfl⟩ := mem_map.mp hseg
    obtain ⟨hlt,hload⟩ := mem_loads.mp hi
    have hsafe : ((loadSegment elf base (phdr elf i)).header base).Safe elf.length := by
      rw [header_loadSegment hb]
      exact h g i hlt hload
    exact ⟨hsafe,sliceOf_safe hlen hsafe⟩

theorem segments_of_flat : ∃ image, parseElf (buildFlatElf [0x90] 0x400000) 0 = some (.ok image) ∧
    ∀ seg ∈ image.segments, (seg.header 0).Safe (buildFlatElf [0x90] 0x400000).length ∧
      ∀ n ≤ seg.filesz, Process.sliceOf (buildFlatElf [0x90] 0x400000) (fileOffset 0 seg) n ≠ none := by
  have hp := parseElf_buildFlatElf [0x90] 0 (show 0x400000 < 2^64 by decide) (by decide)
  refine ⟨_,hp,?_⟩
  exact (segments_safe_iff (by decide) (by decide)).mpr (fun _ => by decide +kernel) _ hp

/-- A flat program whose file ends before the program. -/
def truncatedElf : List UInt8 := (buildFlatElf [0x90] 0x400000).take 120

theorem parseElf_truncatedElf : parseElf truncatedElf 0 =
    some (.ok ⟨0x400000,[⟨0x400000,0x400000,120,1,1,7⟩]⟩) := by
  decide +kernel

theorem truncated_not_refused : ∃ image seg, parseElf truncatedElf 0 = some (.ok image) ∧
    seg ∈ image.segments ∧ ¬(seg.header 0).Safe truncatedElf.length ∧
      Process.sliceOf truncatedElf (fileOffset 0 seg) seg.filesz = none := by
  refine ⟨_,_,parseElf_truncatedElf,mem_singleton_self _,?_,?_⟩
  · intro h
    exact absurd h.inFile (by decide)
  · decide

end

/-! ## The positions of the program headers -/

/-- The sums that the loop over the program headers computes, in their order and before they are
reduced to 64 bits. -/
def positionSums (elf : List UInt8) (base phoff phentsize : ℕ) :
    ℕ → ℕ → List ElfSegment → List ℕ
  | 0,_,_ => []
  | n+1,i,segments =>
    let off := (phoff+i*phentsize)%2^64
    [phoff+i*phentsize,off+56]++
      if (off+56)%2^64 > elf.length then []
      else if off+56 > elf.length then []
      else if field elf off 4 ≠ 1 then positionSums elf base phoff phentsize n (i+1) segments
      else if segments.length ≥ maxSegments then []
      else positionSums elf base phoff phentsize n (i+1) (segments++[loadSegment elf base off])

/-- Those of the whole parser, which comes to the loop only after the checks of the ELF header. -/
def parseSums (elf : List UInt8) (base : ℕ) : List ℕ :=
  match firstFailure (headerChecks elf) with
  | some _ => []
  | none => positionSums elf base (phoff elf) (phentsize elf) (phnum elf) 0 []

section
variable {elf : List UInt8} {base : ℕ}

theorem positionSums_lt {i : ℕ} (n : ℕ) (hlen : elf.length < 2^63) (hstart : phdr elf i+56 < 2^64)
    (segments : List ElfSegment) :
    ∀ x ∈ positionSums elf base (phoff elf) (phentsize elf) n i segments, x < 2^64 := by
  induction n generalizing i segments with
  | zero => simp [positionSums]
  | succ n ih =>
    have hpos : phoff elf+i*phentsize elf = phdr elf i := rfl
    have hoff : phdr elf i%2^64 = phdr elf i := mod_eq_of_lt (by omega)
    intro x hx
    rw [positionSums] at hx
    simp only [hpos, hoff] at hx
    rcases mem_append.mp hx with hx | hx
    · simp only [mem_cons, not_mem_nil, or_false] at hx
      omega
    · split_ifs at hx with h₁ h₂ h₃ h₄
      · exact absurd hx not_mem_nil
      · exact absurd hx not_mem_nil
      · exact ih (phdr_next hlen (not_lt.mp h₂)) _ x hx
      · exact absurd hx not_mem_nil
      · exact ih (phdr_next hlen (not_lt.mp h₂)) _ x hx

/-- The parser answers, and no position exceeds 64 bits, unless the program header table of a file
with a valid ELF header begins in the last 56 bytes of the address space. -/
theorem positions_fit_iff (hlen : elf.length < 2^63) :
    ((∃ answer, parseElf elf base = some answer) ∧ ∀ x ∈ parseSums elf base, x < 2^64) ↔
      ¬(firstFailure (headerChecks elf) = none ∧ 0 < phnum elf ∧ 2^64 ≤ phoff elf+56) := by
  constructor
  · rintro ⟨⟨answer,h⟩,-⟩ ⟨hhead,hnum,hover⟩
    rw [parseElf_stops hlen hhead hnum hover] at h
    cases h
  · intro hw
    refine ⟨⟨_,parseElf_of_not_wraps hlen hw⟩,?_⟩
    unfold parseSums
    cases hhead : firstFailure (headerChecks elf) with
    | some e => simp
    | none =>
      by_cases hnum : 0 < phnum elf
      · refine positionSums_lt _ hlen ?_ _
        have hfit : ¬2^64 ≤ phoff elf+56 := fun hover => hw ⟨hhead,hnum,hover⟩
        unfold phdr
        omega
      · rw [Nat.eq_zero_of_not_pos hnum]
        simp [positionSums]

/-- A flat program whose header places the program header table at the end of the address space. -/
def wrappingElf : List UInt8 :=
  ((flatFields [0x90] 0x400000).set 6 (toLe 8 (2^64-8))).flatten

theorem positions_of_flat : ((∃ answer, parseElf (buildFlatElf [0x90] 0x400000) 0 = some answer) ∧
    ∀ x ∈ parseSums (buildFlatElf [0x90] 0x400000) 0, x < 2^64) :=
  (positions_fit_iff (by decide)).mpr (by decide)

theorem wrapping_stops : parseElf wrappingElf 0 = none ∧ ∃ x ∈ parseSums wrappingElf 0, 2^64 ≤ x := by
  decide +kernel

end

end Zohara.ElfImage
