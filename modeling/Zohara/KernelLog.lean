import Zohara.TicketLock
import Zohara.TurnLoop

/-!
# The kernel log

A ring buffer of 16384 bytes keeps what the kernel prints, under a lock of its own. The state is
that of one core: the statics of dmesg and the bytes sent to the three devices of KernelWriter.
The text of a print is given as the pieces that the formatter hands on; the formatting itself is
left out. The spin loop of lock is given a number of turns and counts those it takes. Running out
of turns is a panic here; it is not one in the source, where the loop goes on.

The bytes that dump goes over are the last ones pushed. But dump prints with its lock held, and
printing pushes to the same buffer: dump waits for itself.
-/
namespace Zohara.KernelLog
open FallibleState TurnLoop TicketLock

/-! ## The source -/

def dmesgBufSize : ℕ := 16384

inductive Device where
  | serial
  | vga
  | framebuffer
  deriving DecidableEq

structure Log where
  buf : ℕ → UInt8
  writePos : ℕ
  wrapped : Bool
  dmesgLock : SpinLock Unit
  out : List (Device × UInt8)
  spins : ℕ

def boot : Log := ⟨fun _ => 0,0,false,new (),[],0⟩

def spin : ℕ → UInt32 → Action Log Unit
  | 0,_ => throw .panic
  | turns+1,ticket => do
    let s ← get
    if s.dmesgLock.next ≠ ticket then
      set {s with spins := s.spins+1}
      spin turns ticket

def lock (turns : ℕ) : Action Log Unit := do
  let s ← get
  set {s with dmesgLock.ticket := s.dmesgLock.ticket+1}
  spin turns s.dmesgLock.ticket

/-- The drop of the guard. -/
def unlock : Action Log Unit := modify fun s => {s with dmesgLock.next := s.dmesgLock.next+1}

def Log.store (s : Log) (b : UInt8) : Log :=
  if s.writePos+1 ≥ dmesgBufSize then
    {s with buf := Function.update s.buf s.writePos b, writePos := 0, wrapped := true}
  else {s with buf := Function.update s.buf s.writePos b, writePos := s.writePos+1}

def pushByte (turns : ℕ) (b : UInt8) : Action Log Unit := do
  lock turns
  let s ← get
  if s.writePos ≥ dmesgBufSize then throw .panic
  set (s.store b)
  unlock

def pushBytes (turns : ℕ) (data : List UInt8) : Action Log Unit := data.forM (pushByte turns)

def write (d : Device) (b : UInt8) : Action Log Unit := modify fun s => {s with out := s.out++[(d,b)]}

def print (turns : ℕ) (pieces : List String) : Action Log Unit := do
  pieces.forM fun p => pushBytes turns p.toUTF8.data.toList
  pieces.forM fun p => p.toUTF8.data.toList.forM fun b => do
    write .serial b
    write .vga b
    write .framebuffer b

def println (turns : ℕ) (pieces : List String) : Action Log Unit := print turns (pieces++["\n"])

/-- One turn of the loop of dump. -/
def dumpTurn (start i : ℕ) : Action Log Unit := do
  let s ← get
  let b := s.buf ((start+i)%dmesgBufSize)
  if b ≠ 0 then write .serial b

def dumpLoop (start total : ℕ) : Action Log Unit := (List.range total).forM (dumpTurn start)

def Log.total (s : Log) : ℕ := if s.wrapped then dmesgBufSize else s.writePos

def Log.start (s : Log) : ℕ := if s.wrapped then s.writePos else 0

def dump (turns : ℕ) : Action Log Unit := do
  lock turns
  let s ← get
  if s.total = 0 then
    println turns ["[dmesg] Buffer empty."]
  else
    println turns ["--- dmesg (",toString s.total," bytes) ---"]
    dumpLoop s.start s.total
    println turns ["\n--- end dmesg ---"]
  unlock

/-! ## The lock -/

variable {s : Log} {n : ℕ}

theorem spin_waits {ticket : UInt32} (h : s.dmesgLock.next ≠ ticket) :
    spin n ticket s = .error .panic {s with spins := s.spins+n} := by
  induction n generalizing s with
  | zero => rfl
  | succ n ih =>
    have hrest := ih (s := {s with spins := s.spins+1}) h
    simp only [Nat.add_right_comm s.spins 1 n] at hrest
    simp [spin, get_bind, set_bind, h, hrest, Nat.add_assoc]

theorem lock_free (h : s.dmesgLock.ticket = s.dmesgLock.next) :
    lock (n+1) s = .ok () {s with dmesgLock.ticket := s.dmesgLock.ticket+1} := by
  simp [lock, spin, get_bind, set_bind, h, pure, EStateM.pure]

/-- The lock is held and nobody waits for it. -/
theorem lock_held (h : s.dmesgLock.ticket = s.dmesgLock.next+1) :
    ∃ s', lock n s = .error .panic s' ∧ s'.spins = s.spins+n := by
  refine ⟨_,spin_waits (s := {s with dmesgLock.ticket := s.dmesgLock.ticket+1}) ?_,rfl⟩
  rw [h]
  intro hc
  simp at hc

/-! ## What is kept -/

/-- The buffer after the bytes `bs` have been pushed: the last ones stand at their number modulo
the size. -/
structure Holds (bs : List UInt8) (s : Log) : Prop where
  pos : s.writePos = bs.length%dmesgBufSize
  wrapped : s.wrapped = decide (dmesgBufSize ≤ bs.length)
  kept : ∀ k < bs.length, bs.length ≤ k+dmesgBufSize → bs[k]? = some (s.buf (k%dmesgBufSize))

variable {bs : List UInt8}

theorem Holds.store {b : UInt8} (h : Holds bs s) : Holds (bs++[b]) (s.store b) := by
  have hkept : ∀ k < (bs++[b]).length, (bs++[b]).length ≤ k+dmesgBufSize →
      (bs++[b])[k]? = some (Function.update s.buf s.writePos b (k%dmesgBufSize)) := by
    intro k hk hwin
    rw [List.length_append, List.length_singleton] at hk hwin
    rw [h.pos]
    by_cases hlast : k = bs.length
    · simp [hlast]
    · have hlt : k < bs.length := by omega
      -- An older byte in the window is not in the place that is written.
      have hne : k%dmesgBufSize ≠ bs.length%dmesgBufSize := by
        unfold dmesgBufSize at hwin ⊢
        omega
      rw [List.getElem?_append_left hlt, h.kept k hlt (by omega), Function.update_of_ne hne]
  have hpos := h.pos
  have hwrapped := h.wrapped
  unfold dmesgBufSize at hpos hwrapped
  unfold Log.store
  split_ifs with hfull <;> unfold dmesgBufSize at hfull <;> refine ⟨?_,?_,hkept⟩
  · simp [dmesgBufSize]
    omega
  · simp [dmesgBufSize]
    omega
  · simp [dmesgBufSize]
    omega
  · simp [hwrapped, dmesgBufSize]
    omega

/-- A push leaves the lock free and sends nothing. -/
structure Pushed (bs : List UInt8) (s : Log) : Prop extends Holds bs s where
  free : s.dmesgLock.ticket = s.dmesgLock.next
  quiet : s.out = []

theorem boot_pushed : Pushed [] boot := ⟨⟨rfl,rfl,by simp⟩,rfl,rfl⟩

@[simp] theorem store_lock (b : UInt8) : (s.store b).dmesgLock = s.dmesgLock := by
  unfold Log.store
  split_ifs <;> rfl

@[simp] theorem store_out (b : UInt8) : (s.store b).out = s.out := by
  unfold Log.store
  split_ifs <;> rfl

theorem pushByte_pushed (b : UInt8) (h : Pushed bs s) :
    ∃ s', pushByte (n+1) b s = .ok () s' ∧ Pushed (bs++[b]) s' := by
  let locked : Log := {s with dmesgLock.ticket := s.dmesgLock.ticket+1}
  have hlt : ¬locked.writePos ≥ dmesgBufSize := by
    simp only [locked, h.pos, ge_iff_le, not_le]
    exact Nat.mod_lt _ (by decide)
  have hlocked : Holds bs locked := ⟨h.pos,h.wrapped,h.kept⟩
  obtain ⟨hpos,hwrapped,hkept⟩ := hlocked.store (b := b)
  have hrun : pushByte (n+1) b s = unlock (locked.store b) := by
    unfold pushByte
    rw [bind_ok (lock_free h.free)]
    change (if locked.writePos ≥ dmesgBufSize then _ else _ : Action Log Unit) locked = _
    rw [if_neg hlt]
    rfl
  refine ⟨_,hrun.trans rfl,⟨⟨hpos,hwrapped,hkept⟩,?_,?_⟩⟩
  · simp [locked, h.free]
  · simp [locked, h.quiet]

theorem pushBytes_pushed (data : List UInt8) (h : Pushed bs s) :
    ∃ s', pushBytes (n+1) data s = .ok () s' ∧ Pushed (bs++data) s' := by
  induction data generalizing bs s with
  | nil => exact ⟨s,rfl,by simpa using h⟩
  | cons b data ih =>
    obtain ⟨s₁,hrun,h₁⟩ := pushByte_pushed (n := n) b h
    obtain ⟨s₂,hrest,h₂⟩ := ih h₁
    exact ⟨s₂,(bind_ok hrun).trans hrest,by simpa using h₂⟩

/-! ## What dump goes over -/

theorem dumpTurn_zero {start i : ℕ} (h : s.buf ((start+i)%dmesgBufSize) = 0) :
    dumpTurn start i s = .ok () s := by
  change (if _ ≠ 0 then _ else _ : Action Log Unit) s = _
  rw [if_neg (not_not.mpr h)]
  rfl

theorem dumpTurn_byte {start i : ℕ} (h : s.buf ((start+i)%dmesgBufSize) ≠ 0) :
    dumpTurn start i s =
      .ok () {s with out := s.out++[(.serial,s.buf ((start+i)%dmesgBufSize))]} := by
  change (if _ ≠ 0 then _ else _ : Action Log Unit) s = _
  rw [if_pos h]
  rfl

theorem dumpTurns (start : ℕ) (is : List ℕ) :
    is.forM (dumpTurn start) s = .ok () {s with out := s.out++
      ((is.map fun i => s.buf ((start+i)%dmesgBufSize)).filter (· ≠ 0)).map (Prod.mk .serial)} := by
  induction is generalizing s with
  | nil => simp [pure, EStateM.pure]
  | cons i is ih =>
    by_cases hb : s.buf ((start+i)%dmesgBufSize) = 0
    · refine (bind_ok (dumpTurn_zero hb)).trans (ih.trans ?_)
      simp [hb]
    · refine (bind_ok (dumpTurn_byte hb)).trans (ih.trans ?_)
      simp [hb]

theorem Holds.window (h : Holds bs s) :
    (List.range s.total).map (fun i => s.buf ((s.start+i)%dmesgBufSize)) =
      bs.drop (bs.length-dmesgBufSize) := by
  have hpos := h.pos
  have htotal : s.total = bs.length-(bs.length-dmesgBufSize) := by
    simp only [Log.total, h.wrapped, hpos, decide_eq_true_eq]
    unfold dmesgBufSize
    split_ifs <;> omega
  apply List.ext_getElem?
  intro i
  by_cases hi : i < s.total
  · have hidx : (s.start+i)%dmesgBufSize = (bs.length-dmesgBufSize+i)%dmesgBufSize := by
      simp only [Log.start, h.wrapped, hpos, decide_eq_true_eq]
      unfold dmesgBufSize at *
      split_ifs <;> omega
    rw [List.getElem?_drop, h.kept _ (by omega) (by omega)]
    simp [hi, hidx]
  · rw [List.getElem?_eq_none (by simpa using hi), List.getElem?_eq_none (by simp; omega)]

/-- The loop of dump, with the start and total that dump computes, sends the last 16384 bytes
pushed since boot, or all of them, oldest first and without the zeros. -/
theorem dumpLoop_pushed (turns : ℕ) (bs : List UInt8) :
    ∃ s s', pushBytes (turns+1) bs boot = .ok () s ∧ dumpLoop s.start s.total s = .ok () s' ∧
      s'.out = ((bs.drop (bs.length-dmesgBufSize)).filter (· ≠ 0)).map (Prod.mk .serial) := by
  obtain ⟨s,hrun,h⟩ := pushBytes_pushed (n := turns) bs boot_pushed
  refine ⟨s,_,hrun,dumpTurns s.start (List.range s.total),?_⟩
  rw [List.nil_append] at h
  dsimp only
  rw [h.quiet, h.toHolds.window, List.nil_append]

/-! ## Dump -/

theorem print_waits {p : String} (ps : List String) (hp : p.toUTF8.data.toList ≠ [])
    (h : s.dmesgLock.ticket = s.dmesgLock.next+1) :
    ∃ s', print n (p::ps) s = .error .panic s' ∧ s'.spins = s.spins+n := by
  obtain ⟨s',hlock,hspins⟩ := lock_held (n := n) h
  refine ⟨s',?_,hspins⟩
  obtain ⟨b,data,hp⟩ := List.exists_cons_of_ne_nil hp
  have hbyte : pushByte n b s = .error .panic s' := bind_error hlock
  have hbytes : pushBytes n p.toUTF8.data.toList s = .error .panic s' := by
    rw [hp]
    exact bind_error hbyte
  exact bind_error (bind_error hbytes)

theorem dump_waits (h : s.dmesgLock.ticket = s.dmesgLock.next) : Endless Log.spins dump s := by
  intro n
  cases n with
  | zero => exact ⟨_,rfl,le_rfl⟩
  | succ n =>
    let held : Log := {s with dmesgLock.ticket := s.dmesgLock.ticket+1}
    have hheld : held.dmesgLock.ticket = held.dmesgLock.next+1 := congrArg (·+1) h
    unfold dump
    rw [bind_ok (lock_free h)]
    change ∃ s', (if held.total = 0 then _ else _ : Action Log Unit) held = .error .panic s' ∧ _
    by_cases hz : held.total = 0
    · obtain ⟨s',hprint,hspins⟩ := print_waits (p := "[dmesg] Buffer empty.") (n := n+1)
        ["\n"] (by decide) hheld
      rw [if_pos hz]
      exact ⟨s',bind_error hprint,hspins.ge⟩
    · obtain ⟨s',hprint,hspins⟩ := print_waits (p := "--- dmesg (") (n := n+1)
        [toString held.total," bytes) ---","\n"] (by decide) hheld
      rw [if_neg hz]
      exact ⟨s',bind_error hprint,hspins.ge⟩

/-- Whatever the buffer holds, a dump that finds the lock free does not come to an end. -/
theorem dump_never_ends (s : Log) (h : s.dmesgLock.ticket = s.dmesgLock.next) :
    Endless Log.spins dump s ∧ ¬Settles dump s ∧ ∀ turns s', dump turns s ≠ .ok () s' := by
  have hwaits := dump_waits h
  refine ⟨hwaits,hwaits.not_settles,fun turns s' hok => ?_⟩
  obtain ⟨_,hrun,_⟩ := hwaits turns
  rw [hrun] at hok
  cases hok

theorem dump_never_ends_boot : ¬Settles dump boot := (dump_never_ends boot rfl).2.1

/-- The dump of the empty log draws a second ticket and waits for its turn. -/
theorem dump_empty_waits : boot.dmesgLock.ticket = boot.dmesgLock.next ∧
    Endless Log.spins dump boot ∧ (after (dump 5) boot).dmesgLock.ticket = 2 ∧
      (after (dump 5) boot).dmesgLock.next = 0 :=
  ⟨rfl,dump_waits rfl,by decide,by decide⟩

end Zohara.KernelLog
