import Zohara.Process
import Zohara.UserMemory

/-!
# The argument block of a new process (src/process.rs)

setup_user_stack writes the block at the address of the user stack while the kernel's own
tables are loaded. These map the address to itself, and the memory there belongs to the
kernel image; the frame of the new task's stack page is another one. So the task sees on its
stack page what the ELF file has put there, and the kernel's memory is overwritten.

The block is `argumentBlock`: the count, the pointers, two null words and the strings. A
reader of the page accepts any pointers to copies of the arguments inside the page
(`ArgBlock`).
-/
namespace Zohara.Process
open ByteMemory FrameAllocator PageTables KernelTables List Option Function
  KernelRuns UserTables SegmentPages Mmu Isolation ElfImage Tasks UserMemory

/-! ## The bytes of the block -/

/-- The pointers to strings that lie one behind the other from `str` on. -/
def pointers : ℕ → List (List UInt8) → List UInt8
  | _,[] => []
  | str,arg::args => toLe 8 str++pointers (str+arg.length+1) args

def strings (args : List (List UInt8)) : List UInt8 := args.flatMap (·++[0])

def argumentBlock (page : ℕ) (args : List (List UInt8)) : List UInt8 :=
  toLe 8 args.length++(pointers (page+headerSize args) args++(toLe 8 0++(toLe 8 0++strings args)))

theorem length_pointers (str : ℕ) (args : List (List UInt8)) :
    (pointers str args).length = 8*args.length := by
  induction args generalizing str with
  | nil => rfl
  | cons arg args ih =>
    rw [pointers, length_append, length_toLe, ih, length_cons]
    omega

theorem length_strings (args : List (List UInt8)) :
    (strings args).length = (args.map fun a => a.length+1).sum := by
  unfold strings
  rw [length_flatMap]
  simp only [length_append, length_singleton]

theorem length_argumentBlock (page : ℕ) (args : List (List UInt8)) :
    (argumentBlock page args).length = blockSize args := by
  unfold argumentBlock blockSize headerSize
  simp only [length_append, length_toLe, length_pointers, length_strings]
  omega

theorem write_comm (m : Memory) {a b : ℕ} {bs cs : List UInt8}
    (h : a+bs.length ≤ b ∨ b+cs.length ≤ a) :
    write (write m a bs) b cs = write (write m b cs) a bs := by
  funext x
  unfold write
  split_ifs
  · omega
  · rfl
  · rfl
  · rfl

theorem pushArgs_write (args : List (List UInt8)) (pos str : ℕ) (mem : Memory)
    (hpos : pos+8*args.length ≤ str) (hstr : str+(strings args).length < 2^64) :
    (args.foldl pushArg (pos,str,mem)).2.2 =
      write (write mem pos (pointers str args)) str (strings args) := by
  induction args generalizing pos str mem with
  | nil =>
    change mem = write (write mem pos []) str []
    funext x
    rw [write_outside _ (by rw [length_nil]; omega),
      write_outside _ (by rw [length_nil]; omega)]
  | cons arg args ih =>
    have hs : strings (arg::args) = (arg++[0])++strings args := flatMap_cons
    have hlen : (arg++[(0 : UInt8)]).length = arg.length+1 := length_append
    have h8 : (toLe 8 str).length = 8 := length_toLe 8 str
    rw [hs, length_append, hlen] at hstr
    rw [length_cons] at hpos
    have hword : (BitVec.ofNat 64 str).toNat = str := by
      rw [BitVec.toNat_ofNat, Nat.mod_eq_of_lt (by omega)]
    have hstep : pushArg (pos,str,mem) arg =
        (pos+8,str+arg.length+1,write (write mem pos (toLe 8 str)) str (arg++[0])) := by
      unfold pushArg writeU64
      rw [hword]
    rw [foldl_cons, hstep, ih _ _ _ (by omega) (by omega), hs, pointers,
      ← write_append _ str (arg++[0]), ← write_append mem pos (toLe 8 str), h8, hlen, ← Nat.add_assoc]
    congr 1
    -- the pointers behind this one lie below the string
    apply write_comm
    rw [length_pointers]
    omega

theorem setupUserStack_write {page : ℕ} {args : List (List UInt8)} (mem : Memory)
    (h : page+blockSize args < 2^64) :
    (setupUserStack page args mem).2 = write mem page (argumentBlock page args) := by
  have hlen := length_strings args
  have hH : headerSize args = 8+8*args.length+8+8 := by
    unfold headerSize
    omega
  unfold blockSize at h
  have hcount : (BitVec.ofNat 64 args.length).toNat = args.length := by
    rw [BitVec.toNat_ofNat, Nat.mod_eq_of_lt (by omega)]
  have hpos := (pushArgs_spec args (page+8,page+headerSize args,
    writeU64 mem page (BitVec.ofNat 64 args.length))).1
  have hw := pushArgs_write args (page+8) (page+headerSize args)
    (writeU64 mem page (BitVec.ofNat 64 args.length)) (by omega) (by omega)
  unfold setupUserStack argumentBlock
  dsimp only at hpos ⊢
  rw [hpos, hw]
  unfold writeU64
  rw [hcount, show (0 : BitVec 64).toNat = 0 from rfl]
  have hz : (toLe 8 0).length = 8 := length_toLe 8 0
  rw [← write_append mem page (toLe 8 args.length), length_toLe, ← write_append _ (page+8),
    length_pointers, ← write_append _ (page+8+8*args.length) (toLe 8 0), hz,
    ← write_append _ (page+8+8*args.length+8) (toLe 8 0), hz,
    show page+8+8*args.length+8+8 = page+headerSize args by omega]
  -- the strings are written before the null words
  rw [write_comm _ (show page+headerSize args+_ ≤ page+8+8*args.length ∨ _ from .inr (by rw [hz]; omega)),
    write_comm _ (show page+headerSize args+_ ≤ page+8+8*args.length+8 ∨ _ from .inr (by rw [hz]; omega))]

/-! ## What a program expects on its stack page -/

/-- The word at offset `k`. -/
def word (f : ℕ → UInt8) (k : ℕ) : ℕ := leNat (read f k 8)

/-- The string at `a`, looked for in `n` bytes. -/
def stringAt (mem : Memory) (n a : ℕ) : List UInt8 := (read mem a n).takeWhile (· ≠ 0)

/-- The count, the strings behind the pointers, and two null words. -/
def decodeStack (mem : Memory) (n rsp : ℕ) : Option (List (List UInt8)) :=
  if word mem (rsp+8+8*word mem rsp) = 0 ∧ word mem (rsp+16+8*word mem rsp) = 0 then
    some ((range (word mem rsp)).map fun i => stringAt mem n (word mem (rsp+8+8*i)))
  else none

theorem word_eq {mem : Memory} {a k : ℕ} (h : read mem a 8 = toLe 8 k) (hk : k < 2^64) :
    word mem a = k := by
  rw [word, h, leNat_toLe]
  exact Nat.mod_eq_of_lt hk

theorem stringAt_eq {mem : Memory} {n a : ℕ} {arg : List UInt8} (hnul : 0 ∉ arg) (hn : arg.length < n)
    (h : read mem a (arg.length+1) = arg++[0]) : stringAt mem n a = arg := by
  obtain ⟨k,rfl⟩ := Nat.exists_eq_add_of_le hn
  rw [stringAt, read_append, h, append_assoc, takeWhile_append_of_pos, singleton_append,
    takeWhile_cons_of_neg (by decide), append_nil]
  exact fun b hb => decide_eq_true fun h0 => hnul (h0 ▸ hb)

theorem strings_decoded {mem : Memory} {n pos str : ℕ} {args : List (List UInt8)}
    (hp : read mem pos (8*args.length) = pointers str args)
    (hs : read mem str (strings args).length = strings args)
    (hlt : str+(strings args).length < 2^64) (hargs : ∀ arg ∈ args, 0 ∉ arg ∧ arg.length < n) :
    (range args.length).map (fun i => stringAt mem n (word mem (pos+8*i))) = args := by
  induction args generalizing pos str with
  | nil => rfl
  | cons arg args ih =>
    have hcons : strings (arg::args) = (arg++[0])++strings args := flatMap_cons
    have hlen : (arg++[(0 : UInt8)]).length = arg.length+1 := length_append
    obtain ⟨harg,hrest⟩ := forall_mem_cons.mp hargs
    rw [hcons, length_append, hlen] at hs hlt
    rw [length_cons, Nat.mul_succ, Nat.add_comm, read_append, pointers] at hp
    obtain ⟨hp₁,hp₂⟩ := append_inj hp (by rw [length_read, length_toLe])
    rw [read_append] at hs
    obtain ⟨hs₁,hs₂⟩ := append_inj hs (by rw [length_read, hlen])
    rw [length_cons, range_succ_eq_map, map_cons, List.map_map, Nat.mul_zero, Nat.add_zero,
      word_eq hp₁ (by omega), stringAt_eq harg.1 harg.2 hs₁]
    congr 1
    refine Eq.trans (map_congr_left fun i _ => ?_) (ih hp₂ hs₂ (by omega) hrest)
    rw [comp_apply, Nat.mul_succ, Nat.add_comm (8*i), Nat.add_assoc]

/-- The block decodes to the arguments, and nothing else is written. -/
theorem setupUserStack_decodes {page n : ℕ} {args : List (List UInt8)} (mem : Memory)
    (hargs : ∀ arg ∈ args, 0 ∉ arg) (hn : ∀ arg ∈ args, arg.length < n)
    (h : page+blockSize args < 2^64) :
    decodeStack (setupUserStack page args mem).2 n (setupUserStack page args mem).1 = some args ∧
      ∀ x, x < page ∨ page+8*(args.length+3)+(args.map fun a => a.length+1).sum ≤ x →
        (setupUserStack page args mem).2 x = mem x := by
  have hblock := length_argumentBlock page args
  have hread := read_write_self mem page (argumentBlock page args)
  have hfst : (setupUserStack page args mem).1 = page := rfl
  rw [setupUserStack_write mem h, hfst]
  have hlen := length_strings args
  have hhead : headerSize args = 8*(args.length+3) := by
    unfold headerSize
    omega
  unfold blockSize at h hblock
  refine ⟨?_,fun x hx => write_outside _ (by omega)⟩
  generalize write mem page (argumentBlock page args) = m at hread
  rw [hblock, hhead, ← hlen, show 8*(args.length+3)+(strings args).length =
    8+(8*args.length+(8+(8+(strings args).length))) by omega, argumentBlock] at hread
  simp only [read_append] at hread
  obtain ⟨h₁,hread⟩ := append_inj hread (by rw [length_read, length_toLe])
  obtain ⟨h₂,hread⟩ := append_inj hread (by rw [length_read, length_pointers])
  obtain ⟨h₃,hread⟩ := append_inj hread (by rw [length_read, length_toLe])
  obtain ⟨h₄,h₅⟩ := append_inj hread (by rw [length_read, length_toLe])
  rw [show page+8+8*args.length+8+8 = page+headerSize args by omega] at h₅
  have hargc : word m page = args.length := word_eq h₁ (by omega)
  have hnull : word m (page+16+8*args.length) = 0 := by
    rw [show page+16+8*args.length = page+8+8*args.length+8 by omega]
    exact word_eq h₄ (by decide)
  rw [decodeStack, hargc, if_pos ⟨word_eq h₃ (by decide),hnull⟩,
    strings_decoded h₂ h₅ (by omega) fun arg ha => ⟨hargs arg ha,hn arg ha⟩]

/-- An empty argument and one of a single byte. -/
theorem setupUserStack_decodes_two : decodeStack (setupUserStack 0x500000 [[],[0x61]] fun _ => 7).2
    2 0x500000 = some [[],[0x61]] :=
  (setupUserStack_decodes (fun _ => 7) (by decide) (by decide) (by decide)).1

/-- The page that starts at `sp` has the bytes `f`. -/
structure ArgBlock (f : ℕ → UInt8) (sp : ℕ) (args : List (List UInt8)) : Prop where
  argc : word f 0 = args.length
  argv : ∀ i arg, args[i]? = some arg → ∃ q, word f (8+8*i) = sp+q ∧ q+arg.length < 4096 ∧
    ∀ k ≤ arg.length, f (q+k) = (arg++[0]).getD k 0
  argvEnd : word f (8+8*args.length) = 0
  envpEnd : word f (16+8*args.length) = 0

theorem word_congr {f g : ℕ → UInt8} {k : ℕ} (h : ∀ i < 4096, f i = g i) (hk : k+8 ≤ 4096) :
    word f k = word g k := by
  unfold word
  rw [read_congr fun i hi => h (k+i) (by omega)]

theorem ArgBlock.congr {f g : ℕ → UInt8} {sp : ℕ} {args : List (List UInt8)}
    (hb : ArgBlock f sp args) (h : ∀ k < 4096, f k = g k) (hfit : headerSize args ≤ 4096) :
    ArgBlock g sp args := by
  unfold headerSize at hfit
  constructor
  · rw [← word_congr h (by omega)]
    exact hb.argc
  · intro i arg harg
    obtain ⟨hi,-⟩ := List.getElem?_eq_some_iff.mp harg
    obtain ⟨q,hq,hin,hbytes⟩ := hb.argv i arg harg
    refine ⟨q,?_,hin,fun k hk => ?_⟩
    · rw [← word_congr h (by omega)]
      exact hq
    · rw [← h (q+k) (by omega)]
      exact hbytes k hk
  · rw [← word_congr h (by omega)]
    exact hb.argvEnd
  · rw [← word_congr h (by omega)]
    exact hb.envpEnd

theorem argBlock_zero (sp : ℕ) (args : List (List UInt8)) :
    ArgBlock (fun _ => 0) sp args ↔ args = [] := by
  have hz : ∀ k, word (fun _ => 0) k = 0 := by
    intro k
    have hread : read (fun _ => 0) k 8 = List.replicate 8 0 := by
      unfold ByteMemory.read
      rw [map_const', length_range]
    unfold word
    rw [hread]
    rfl
  constructor
  · intro hb
    have hlen := hb.argc
    rw [hz] at hlen
    exact length_eq_zero_iff.mp hlen.symm
  · intro hnil
    subst hnil
    refine ⟨hz 0,fun i arg h => ?_,hz _,hz _⟩
    rw [getElem?_nil] at h
    cases h

/-! ## The stack pointer of the new task -/

/-- The user stack pointer in the frame that the first return to the task pops. -/
def initialRsp (s : System) (i : ℕ) : ℕ := (readU64 s.machine.mem (s.stackOf i+stackSize-16)).toNat

theorem buildFrame_rsp (ss rsp cs rip base : ℕ) (mem : Memory) :
    readU64 (buildFrame ss rsp cs rip (base+stackSize) mem).2 (base+stackSize-16) =
      BitVec.ofNat 64 rsp := by
  have hsize : stackSize = 32768 := rfl
  have hlen : ([0x202,cs,rip]++List.replicate 15 0).length = 18 := by simp
  obtain ⟨h₁,h₂⟩ := foldl_push ([0x202,cs,rip]++List.replicate 15 0)
    (push (push (base+stackSize,mem) ss) rsp) (by rw [hlen]; unfold push; dsimp only; omega)
  rw [hlen] at h₁ h₂
  have hsp : (push (push (base+stackSize,mem) ss) rsp).1 = base+stackSize-16 := by
    unfold push
    dsimp only
    omega
  rw [hsp] at h₁ h₂
  unfold buildFrame
  dsimp only
  rw [show [ss,rsp,0x202,cs,rip]++List.replicate 15 0 =
    ss::rsp::([0x202,cs,rip]++List.replicate 15 0) from rfl, foldl_cons, foldl_cons]
  -- everything else is written below the stack pointer's slot
  have hslot : ∀ i < 8, fill (([0x202,cs,rip]++List.replicate 15 0).foldl push
      (push (push (base+stackSize,mem) ss) rsp)).2
      ((([0x202,cs,rip]++List.replicate 15 0).foldl push
        (push (push (base+stackSize,mem) ss) rsp)).1-256) 256 0 (base+stackSize-16+i) =
      (push (push (base+stackSize,mem) ss) rsp).2 (base+stackSize-16+i) := by
    intro i hi
    rw [fill_outside _ _ (by omega), h₂ _ (by omega)]
  rw [readU64_congr hslot]
  exact readU64_writeU64_self _ _ _

theorem initialRsp_setMem (s : System) (mem : Memory) (i : ℕ) (f : Task → Task) :
    initialRsp ((s.setMem mem).setTask i f) i =
      (readU64 mem (s.stackOf i+stackSize-16)).toNat := rfl

theorem spawnUserspace_rsp {s s' : System} {entry sp root i : ℕ} {frames : List ℕ}
    (h : s.spawnUserspace entry sp root frames = (.ok i,s')) (hsp : sp < 2^64) :
    initialRsp s' i = sp := by
  rw [System.spawnUserspace, spawnUserspace_slot h] at h
  obtain ⟨-,rfl⟩ := Prod.mk.inj h
  rw [initialRsp_setMem, buildUserspaceFrame, System.stackTop, buildFrame_rsp,
    BitVec.toNat_ofNat, Nat.mod_eq_of_lt hsp]

/-! ## The whole call -/

/-- The new task finds its arguments where its stack pointer points to. -/
def Delivered (s : System) (idx : ℕ) (args : List (List UInt8)) : Prop :=
  ∃ f, (∀ k < 4096, readVirt s.machine (s.tasks idx).pageTableRoot (initialRsp s idx+k) = some (f k)) ∧
    ArgBlock f (initialRsp s idx) args

/-- The stack setup writes to no memory but the frames of the new task. -/
def Undisturbed (s : System) (elf : List UInt8) (base : ℕ) (image : Image)
    (args : List (List UInt8)) : Prop :=
  ∀ root frames m m', createUserPageTables s.machine (segmentsOf base image) = some ((root,frames),m) →
    frames.foldlM (copyFrame elf (segmentsOf base image)) m = some m' →
    ∀ x, (setupUserStack stackVa args m'.mem).2 x ≠ m'.mem x → ∃ frame ∈ frames, frame.2.2 = x/4096*4096

section
variable {s s' : System} {elf : List UInt8} {base idx r : ℕ} {args : List (List UInt8)}
  {image : Image} {A : Finset ℕ}

theorem createProcess_rsp (hp : parseElf elf base = some (.ok image))
    (h : createProcess s elf base args = some (.ok idx,s')) : initialRsp s' idx = stackVa := by
  obtain ⟨root,frames,m,m',-,-,hs⟩ := createProcess_spawns hp h
  exact spawnUserspace_rsp hs (by decide)

section

variable (ok : KernelOk s.machine r) (ha : Apart A s.machine r)
include ok ha

theorem delivered_iff (hA : Reserved A s args) (hp : parseElf elf base = some (.ok image))
    (hlow : Low (segmentsOf base image)) (hfit : blockSize args ≤ 4096)
    (h : createProcess s elf base args = some (.ok idx,s')) :
    Delivered s' idx args ↔
      ArgBlock (pageByte elf (segmentsOf base image) stackVa) stackVa args := by
  have hsp := createProcess_rsp hp h
  have hhead : headerSize args ≤ 4096 := by
    unfold blockSize at hfit
    omega
  have hread : ∀ k < 4096, readVirt s'.machine (s'.tasks idx).pageTableRoot (stackVa+k) =
      some (pageByte elf (segmentsOf base image) stackVa k) := by
    intro k hk
    have hva : stackVa = 0x500*4096 := rfl
    have hpage : (stackVa+k)/4096*4096 = stackVa := by omega
    have hoff : (stackVa+k)%4096 = k := by omega
    rw [createProcess_reads ok ha hA hp hlow h (.inr hpage), hpage, hoff]
  unfold Delivered
  rw [hsp]
  constructor
  · rintro ⟨f,hf,hb⟩
    apply hb.congr _ hhead
    intro k hk
    exact some.inj ((hf k hk).symm.trans (hread k hk))
  · intro hb
    exact ⟨_,hread,hb⟩

theorem copied_apart {m m' : Machine} {root : ℕ} {frames : List (ℕ × ℕ × ℕ)} (hlow : Low (segmentsOf base image))
    (hcreate : createUserPageTables s.machine (segmentsOf base image) = some ((root,frames),m))
    (hcopy : frames.foldlM (copyFrame elf (segmentsOf base image)) m = some m') :
    (∀ frame ∈ frames, frame.2.2/4096 ∉ A) ∧ ∀ x, x/4096 ∈ A → m'.mem x = s.machine.mem x := by
  obtain ⟨U,ds,hU,-,rfl,hreq,hnodup,hzero,hok⟩ := createUserPageTables_spec ok hlow.requests hcreate
  have howned : ∀ d ∈ ds, d.frame ∈ (ds.map Mapping.frame).toFinset := by
    intro d hd
    exact mem_toFinset.mpr (mem_map_of_mem hd)
  obtain ⟨-,hc,-⟩ := copyFrames_spec hcopy hnodup hzero.frames
  have hfresh : ∀ d ∈ ds, d.frame ∉ A := by
    intro d hd hin
    exact (hok.owned_fresh d.frame (howned d hd)).1 (ha.1 hin)
  constructor
  · intro frame hframe
    obtain ⟨d,hd,rfl⟩ := mem_map.mp hframe
    rw [show d.record.2.2 = d.frame*4096 from rfl, Nat.mul_div_cancel _ (by decide)]
    exact hfresh d hd
  · intro x hx
    rw [hc.mem x, mem_apart ha hok hx]
    intro hin
    obtain ⟨d,hd,hdx⟩ := mem_map.mp hin
    exact hfresh d hd (hdx ▸ hx)

theorem undisturbed_iff (hA : Reserved A s args) (hp : parseElf elf base = some (.ok image))
    (hlow : Low (segmentsOf base image)) (hfit : blockSize args ≤ 4096)
    (h : createProcess s elf base args = some (.ok idx,s')) :
    Undisturbed s elf base image args ↔
      read s.machine.mem stackVa (blockSize args) = argumentBlock stackVa args := by
  have hva : stackVa = 0x500*4096 := rfl
  have hlen := length_argumentBlock stackVa args
  obtain ⟨frames,m,m',hcreate,hcopy,-⟩ := createProcess_ok hp hA h
  have hread : read m'.mem stackVa (blockSize args) = read s.machine.mem stackVa (blockSize args) := by
    apply read_congr
    intro i hi
    exact (copied_apart ok ha hlow hcreate hcopy).2 _ (hA.arguments _ (by omega) (by omega))
  constructor
  · intro hund
    have hsame : ∀ x, stackVa ≤ x → x < stackVa+blockSize args →
        (setupUserStack stackVa args m'.mem).2 x = m'.mem x := by
      intro x hx hx'
      by_contra hne
      obtain ⟨frame,hframe,hpa⟩ := hund _ _ _ _ hcreate hcopy x hne
      apply (copied_apart ok ha hlow hcreate hcopy).1 frame hframe
      rw [hpa, Nat.mul_div_cancel _ (by decide)]
      exact hA.arguments x hx hx'
    rw [← hread, ← read_write_self m'.mem stackVa (argumentBlock stackVa args), hlen,
      ← setupUserStack_write m'.mem (by omega)]
    exact (read_congr fun i hi => hsame _ (by omega) (by omega)).symm
  · intro hblock root frames m m' hcreate hcopy x hne
    have hread' : read m'.mem stackVa (blockSize args) = argumentBlock stackVa args := by
      rw [← hblock]
      apply read_congr
      intro i hi
      exact (copied_apart ok ha hlow hcreate hcopy).2 _ (hA.arguments _ (by omega) (by omega))
    rw [setupUserStack_write m'.mem (by omega), ← hread', write_read_self] at hne
    exact absurd rfl hne

end

/-- The arguments arrive and nothing else is overwritten exactly when there was nothing to
write: the file's own stack page holds the arguments, and the kernel's memory at the same
address is the block already. -/
theorem createProcess_arguments_iff (ok : KernelOk s.machine r) (ha : Apart A s.machine r)
    (hA : Reserved A s args) (hp : parseElf elf base = some (.ok image))
    (hlow : Low (segmentsOf base image)) (hfit : blockSize args ≤ 4096)
    (h : createProcess s elf base args = some (.ok idx,s')) :
    (Delivered s' idx args ∧ Undisturbed s elf base image args) ↔
      ArgBlock (pageByte elf (segmentsOf base image) stackVa) stackVa args ∧
        read s.machine.mem stackVa (blockSize args) = argumentBlock stackVa args :=
  and_congr (delivered_iff ok ha hA hp hlow hfit h) (undisturbed_iff ok ha hA hp hlow hfit h)

end

/-! ## A program on the booted kernel -/

theorem pageByte_flat (code : List UInt8) :
    pageByte (buildFlatElf code 0x400000) (segmentsOf 0x800000 (flatImage code 0x400000 0x800000))
      stackVa = fun _ => 0 := by
  rw [segmentsOf_flat code (by decide)]
  rfl

theorem kernel_zero {m : Machine} (hr : KernelRun (bootMachine 0x900000 0x10000000) [] m) {x : ℕ}
    (hx : x < 0x900000) : m.mem x = 0 := by
  have hv := bootMachine_valid 0x900000 (show frameSize ≤ 0x10000000 by decide)
  exact kernelRun_kept hv hr (kernelImage_used hx)

theorem no_arguments_delivered : ∃ m s',
    KernelRun (bootMachine 0x900000 0x10000000) [] m ∧
    createProcess (bootSystem m) (buildFlatElf [0xC3] 0x400000) 0x800000 [] = some (.ok 1,s') ∧
    Delivered s' 1 [] ∧ Undisturbed (bootSystem m) (buildFlatElf [0xC3] 0x400000) 0x800000
      (flatImage [0xC3] 0x400000 0x800000) [] := by
  obtain ⟨m,r,s',hr,ok,ha,hs'⟩ := exists_flat_process [0xC3] [] (by decide) (by decide)
  have hl := flat_loadable [0xC3] (show 0x800000 < 2^64 by decide) (show 0x400000+1 ≤ 2^31 by decide)
  refine ⟨m,s',hr,hs',(createProcess_arguments_iff (s := bootSystem m) ok ha
    (bootSystem_reserved m (by decide)) (parseElf_buildFlatElf [0xC3] 0x800000 (by decide) (by decide))
    hl.low_segments (by decide) hs').mpr ⟨?_,?_⟩⟩
  · rw [pageByte_flat]
    exact (argBlock_zero _ _).mpr rfl
  · have hzero : read (bootSystem m).machine.mem stackVa (blockSize []) = read (fun _ => 0) stackVa 24 := by
      apply read_congr
      intro i hi
      have hi' : i < 24 := hi
      have hva : stackVa = 0x500000 := rfl
      exact kernel_zero hr (by omega)
    rw [hzero]
    decide

/-- One argument: the task reads the count 0, and the count 1 is in the kernel's memory. -/
theorem argument_lost : ∃ m s',
    KernelRun (bootMachine 0x900000 0x10000000) [] m ∧
    createProcess (bootSystem m) (buildFlatElf [0xC3] 0x400000) 0x800000 [[0x61]] = some (.ok 1,s') ∧
    initialRsp s' 1 = 0x500000 ∧
    readVirt s'.machine (s'.tasks 1).pageTableRoot 0x500000 = some 0 ∧
    m.mem 0x500000 = 0 ∧ s'.machine.mem 0x500000 = 1 := by
  obtain ⟨m,r,s',hr,ok,ha,hs'⟩ := exists_flat_process [0xC3] [[0x61]] (by decide) (by decide)
  have hl := flat_loadable [0xC3] (show 0x800000 < 2^64 by decide) (show 0x400000+1 ≤ 2^31 by decide)
  have hp := parseElf_buildFlatElf [0xC3] 0x800000 (show 0x400000 < 2^64 by decide) (by decide)
  have hA := bootSystem_reserved m (show blockSize [[0x61]] ≤ 4096 by decide)
  refine ⟨m,s',hr,hs',createProcess_rsp hp hs',?_,kernel_zero hr (by decide),?_⟩
  · have hu : UserPage (segmentsOf 0x800000 (flatImage [0xC3] 0x400000 0x800000)) 0x500000 := .inr rfl
    rw [createProcess_reads (s := bootSystem m) ok ha hA hp hl.low_segments hs' hu]
    exact congrArg some (congrFun (pageByte_flat [0xC3]) 0)
  · obtain ⟨_,_,_,m',-,-,hs⟩ := createProcess_spawns hp hs'
    obtain ⟨-,-,-,hmem⟩ := spawnUserspace_ok hs
    have hst : (bootSystem m).stackOf 1 = 0x108000 := rfl
    have hsz : stackSize = 0x8000 := rfl
    rw [hmem 0x500000 (.inr (by dsimp only; omega))]
    dsimp only
    rw [setupUserStack_write _ (by decide)]
    exact write_inside (i := 0) m'.mem stackVa (by rw [length_argumentBlock]; decide)

end Zohara.Process
