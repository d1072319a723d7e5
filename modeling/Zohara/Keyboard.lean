import Mathlib.Data.List.Basic

/-!
# Key decoding (src/keyboard.rs)

The interrupt handler appends received bytes to a buffer, and the shell polls for keys.
This is the x86_64 version of try_get_key. A poll reads one key or one escape sequence
from the front of the buffer; it returns no key when the buffer is empty, when what it
reads is not a key, and when an escape character has fewer than two bytes behind it. Only
in the last case it leaves the buffer as it is.

A sequence ESC [ 3, 5 or 6 has a fourth byte, and a poll that comes before it takes the
other three away. Away from such polls the keys are a function of the received bytes.
-/
namespace Zohara.Keyboard
open List Option

def keyTab : Char := '\t'
def keyCtrlA : Char := '\x01'
def keyCtrlB : Char := '\x02'
def keyCtrlC : Char := '\x03'
def keyCtrlD : Char := '\x04'
def keyCtrlE : Char := '\x05'
def keyCtrlF : Char := '\x06'
def keyCtrlK : Char := '\x0B'
def keyCtrlL : Char := '\x0C'
def keyCtrlN : Char := '\x0E'
def keyCtrlP : Char := '\x10'
def keyCtrlU : Char := '\x15'
def keyCtrlW : Char := '\x17'
def keyHome : Char := Char.ofNat 0x1004
def keyEnd : Char := Char.ofNat 0x1005
def keyDelete : Char := Char.ofNat 0x1006
def keyPageUp : Char := Char.ofNat 0x1007
def keyPageDown : Char := Char.ofNat 0x1008

def esc : UInt8 := 0x1B

/-- `none` before init_buffer. -/
abbrev Buffer : Type := Option (List UInt8)

def initBuffer : Buffer := some []

def pushKey (buf : Buffer) (data : UInt8) : Buffer := buf.map (·++[data])

/-- A byte that is no escape character. -/
def plainKey (data : UInt8) : Option Char :=
  if data = 0x01 then some keyCtrlA else
  if data = 0x02 then some keyCtrlB else
  if data = 0x03 then some keyCtrlC else
  if data = 0x04 then some keyCtrlD else
  if data = 0x05 then some keyCtrlE else
  if data = 0x06 then some keyCtrlF else
  if data = 0x0B then some keyCtrlK else
  if data = 0x0C then some keyCtrlL else
  if data = 0x0E then some keyCtrlN else
  if data = 0x10 then some keyCtrlP else
  if data = 0x15 then some keyCtrlU else
  if data = 0x17 then some keyCtrlW else
  if data = 0x09 then some keyTab else
  if data = 0x0D ∨ data = 0x0A then some '\n' else
  if data = 0x08 ∨ data = 0x7F then some '\x08' else
  if data ≥ 0x20 ∧ data ≤ 0x7E then some (Char.ofNat data.toNat) else none

/-- The fourth byte is taken whatever it is. -/
def tilde (key : Char) : List UInt8 → Option Char × List UInt8
  | [] => (none,[])
  | data::b => (if data = 0x7E then some key else none,b)

/-- ESC [ -/
def bracketKey (c2 : UInt8) (b : List UInt8) : Option Char × List UInt8 :=
  if c2 = 0x41 then (some (Char.ofNat 0x1000),b) else
  if c2 = 0x42 then (some (Char.ofNat 0x1001),b) else
  if c2 = 0x43 then (some (Char.ofNat 0x1002),b) else
  if c2 = 0x44 then (some (Char.ofNat 0x1003),b) else
  if c2 = 0x48 then (some keyHome,b) else
  if c2 = 0x46 then (some keyEnd,b) else
  if c2 = 0x33 then tilde keyDelete b else
  if c2 = 0x35 then tilde keyPageUp b else
  if c2 = 0x36 then tilde keyPageDown b else (none,b)

/-- ESC O -/
def functionKey (c2 : UInt8) : Option Char :=
  if c2 = 0x50 then some (Char.ofNat 0x1010) else
  if c2 = 0x51 then some (Char.ofNat 0x1011) else
  if c2 = 0x52 then some (Char.ofNat 0x1012) else
  if c2 = 0x53 then some (Char.ofNat 0x1013) else none

def poll : List UInt8 → Option Char × List UInt8
  | [] => (none,[])
  | data::b =>
    if data = esc then
      match b with
      | c1::c2::b =>
        if c1 = 0x5B then bracketKey c2 b else
        if c1 = 0x4F then (functionKey c2,b) else (none,b)
      | _ => (none,data::b)
    else (plainKey data,b)

def tryGetKey : Buffer → Option Char × Buffer
  | none => (none,none)
  | some b => ((poll b).1,some (poll b).2)

/-! ## Interleavings -/

inductive Act where
  | push (data : UInt8)
  | poll
  deriving DecidableEq, Repr

def received : List Act → List UInt8
  | [] => []
  | .push data::acts => data::received acts
  | .poll::acts => received acts

/-- The returned keys, and the buffer at the end. -/
def run : List Act → Buffer → List Char × Buffer
  | [],buf => ([],buf)
  | .push data::acts,buf => run acts (pushKey buf data)
  | .poll::acts,buf =>
    let r := run acts (tryGetKey buf).2
    ((tryGetKey buf).1.toList++r.1,r.2)

/-- Polling has stopped to change the buffer. -/
def Settled (buf : Buffer) : Prop := (tryGetKey buf).2 = buf

/-- A sequence of four bytes without its last byte. -/
def Cut (b : List UInt8) : Prop :=
  b = [esc,0x5B,0x33] ∨ b = [esc,0x5B,0x35] ∨ b = [esc,0x5B,0x36]

/-- A byte that stands for nothing. -/
def Silent (data : UInt8) : Prop := data ≠ esc ∧ plainKey data = none

/-- No poll meets a sequence of four bytes whose last byte is yet to come, unless that byte
stands for nothing. -/
def Whole : List Act → Buffer → Prop
  | [],_ => True
  | .push data::acts,buf => Whole acts (pushKey buf data)
  | .poll::acts,buf =>
    (∀ b data, buf = some b → Cut b → (received acts).head? = some data → Silent data) ∧
      Whole acts (tryGetKey buf).2

/-! ## The keys of a byte sequence -/

section
variable {b t : List UInt8}

theorem poll_plain {data : UInt8} (h : data ≠ esc) (b : List UInt8) :
    poll (data::b) = (plainKey data,b) := if_neg h

theorem poll_escape (c1 c2 : UInt8) (b : List UInt8) : poll (esc::c1::c2::b) =
    if c1 = 0x5B then bracketKey c2 b else if c1 = 0x4F then (functionKey c2,b) else (none,b) := rfl

theorem tilde_length (key : Char) (b : List UInt8) : (tilde key b).2.length ≤ b.length := by
  cases b with
  | nil => exact Nat.le_refl _
  | cons data b => exact Nat.le_succ _

theorem bracketKey_cases (c2 : UInt8) : (∃ k, ∀ b, bracketKey c2 b = (k,b)) ∨
    ((c2 = 0x33 ∨ c2 = 0x35 ∨ c2 = 0x36) ∧ ∃ key, ∀ b, bracketKey c2 b = tilde key b) := by
  unfold bracketKey
  by_cases h41 : c2 = 0x41
  · simp only [if_pos h41]
    exact .inl ⟨_,fun _ => rfl⟩
  simp only [if_neg h41]
  by_cases h42 : c2 = 0x42
  · simp only [if_pos h42]
    exact .inl ⟨_,fun _ => rfl⟩
  simp only [if_neg h42]
  by_cases h43 : c2 = 0x43
  · simp only [if_pos h43]
    exact .inl ⟨_,fun _ => rfl⟩
  simp only [if_neg h43]
  by_cases h44 : c2 = 0x44
  · simp only [if_pos h44]
    exact .inl ⟨_,fun _ => rfl⟩
  simp only [if_neg h44]
  by_cases h48 : c2 = 0x48
  · simp only [if_pos h48]
    exact .inl ⟨_,fun _ => rfl⟩
  simp only [if_neg h48]
  by_cases h46 : c2 = 0x46
  · simp only [if_pos h46]
    exact .inl ⟨_,fun _ => rfl⟩
  simp only [if_neg h46]
  by_cases h33 : c2 = 0x33
  · simp only [if_pos h33]
    exact .inr ⟨.inl h33,_,fun _ => rfl⟩
  simp only [if_neg h33]
  by_cases h35 : c2 = 0x35
  · simp only [if_pos h35]
    exact .inr ⟨.inr (.inl h35),_,fun _ => rfl⟩
  simp only [if_neg h35]
  by_cases h36 : c2 = 0x36
  · simp only [if_pos h36]
    exact .inr ⟨.inr (.inr h36),_,fun _ => rfl⟩
  simp only [if_neg h36]
  exact .inl ⟨_,fun _ => rfl⟩

theorem bracketKey_length (c2 : UInt8) (b : List UInt8) :
    (bracketKey c2 b).2.length ≤ b.length := by
  rcases bracketKey_cases c2 with ⟨k,hk⟩ | ⟨-,key,hkey⟩
  · rewrite [hk]
    exact Nat.le_refl _
  · rw [hkey]
    exact tilde_length key b

theorem poll_shortens (b : List UInt8) : poll b = (none,b) ∨ (poll b).2.length < b.length := by
  cases b with
  | nil => exact .inl rfl
  | cons data b =>
    by_cases hesc : data = esc
    · subst hesc
      match b with
      | [] => exact .inl rfl
      | [c1] => exact .inl rfl
      | c1::c2::b =>
        right
        have hlen := bracketKey_length c2 b
        rw [poll_escape, length_cons, length_cons, length_cons]
        split_ifs
        · omega
        · dsimp only; omega
        · dsimp only; omega
    · right
      rw [poll_plain hesc]
      exact Nat.lt_succ_self _

/-- The keys of at most `n` polls. -/
def drain : ℕ → List UInt8 → List Char
  | 0,_ => []
  | n+1,b => (poll b).1.toList++drain n (poll b).2

theorem drain_settled (n : ℕ) (h : poll b = (none,b)) : drain n b = [] := by
  induction n with
  | zero => rfl
  | succ n ih =>
    unfold drain
    rw [h, ih]
    rfl

theorem drain_enough {n m : ℕ} (hn : b.length ≤ n) (hm : b.length ≤ m) : drain n b = drain m b := by
  induction n generalizing b m with
  | zero =>
    have hb : b = [] := length_eq_zero_iff.mp (Nat.le_zero.mp hn)
    subst hb
    exact (drain_settled m rfl).symm
  | succ n ih =>
    rcases poll_shortens b with h | h
    · rw [drain_settled _ h, drain_settled _ h]
    · cases m with
      | zero => omega
      | succ m =>
        unfold drain
        rw [ih (by omega) (show (poll b).2.length ≤ m by omega)]

/-- The keys that a buffer gives when it is polled until it stops changing. -/
def decode (b : List UInt8) : List Char := drain b.length b

theorem decode_settled (h : poll b = (none,b)) : decode b = [] := drain_settled _ h

theorem decode_poll (b : List UInt8) : decode b = (poll b).1.toList++decode (poll b).2 := by
  rcases poll_shortens b with h | h
  · rw [h, decode_settled h]
    rfl
  · unfold decode
    rw [drain_enough (Nat.le_refl _) (Nat.le_succ b.length)]
    change (poll b).1.toList++drain b.length (poll b).2 = _
    rw [drain_enough (show (poll b).2.length ≤ b.length by omega) (Nat.le_refl _)]

/-- Bytes that come later do not matter to a poll, unless a sequence is cut. -/
theorem poll_append (hb : ¬Cut b) (t : List UInt8) :
    poll b = (none,b) ∨ poll (b++t) = ((poll b).1,(poll b).2++t) := by
  cases b with
  | nil => exact .inl rfl
  | cons data b =>
    by_cases hesc : data = esc
    · subst hesc
      match b with
      | [] => exact .inl rfl
      | [c1] => exact .inl rfl
      | c1::c2::b =>
        right
        rw [cons_append, cons_append, cons_append, poll_escape, poll_escape]
        by_cases hbr : c1 = 0x5B
        · subst hbr
          rw [if_pos rfl, if_pos rfl]
          rcases bracketKey_cases c2 with ⟨k,hk⟩ | ⟨hc,key,hkey⟩
          · rw [hk, hk]
          · rw [hkey, hkey]
            cases b with
            | cons data b => rfl
            | nil =>
              apply (hb _).elim
              unfold Cut
              rcases hc with rfl | rfl | rfl
              · exact .inl rfl
              · exact .inr (.inl rfl)
              · exact .inr (.inr rfl)
        · rw [if_neg hbr, if_neg hbr]
          split_ifs <;> rfl
    · right
      rw [cons_append, poll_plain hesc, poll_plain hesc]

theorem poll_silent {data : UInt8} (h : Silent data) : poll (data::t) = (none,t) := by
  rw [poll_plain h.1, h.2]

theorem decode_cut {data : UInt8} (hb : Cut b) (h : Silent data) :
    (poll b).1 = none ∧ decode (b++data::t) = decode ((poll b).2++data::t) := by
  have hne : data ≠ 0x7E := by
    intro h7
    rw [Silent, h7] at h
    exact absurd h.2 (by decide)
  have hlast : decode (data::t) = decode t := by
    rw [decode_poll, poll_silent h]
    rfl
  have htilde : ∀ key, tilde key (data::t) = (none,t) := by
    intro key
    change (if data = 0x7E then some key else none,t) = (none,t)
    rw [if_neg hne]
  rcases hb with rfl | rfl | rfl
  · refine ⟨rfl,?_⟩
    rw [decode_poll, show poll ([esc,0x5B,0x33]++data::t) = (none,t) from htilde keyDelete]
    exact hlast.symm
  · refine ⟨rfl,?_⟩
    rw [decode_poll, show poll ([esc,0x5B,0x35]++data::t) = (none,t) from htilde keyPageUp]
    exact hlast.symm
  · refine ⟨rfl,?_⟩
    rw [decode_poll, show poll ([esc,0x5B,0x36]++data::t) = (none,t) from htilde keyPageDown]
    exact hlast.symm

/-- One poll takes its key from the front of the keys of the whole stream. -/
theorem decode_append (h : ∀ data, Cut b → t.head? = some data → Silent data) :
    decode (b++t) = (poll b).1.toList++decode ((poll b).2++t) := by
  by_cases hb : Cut b
  · cases t with
    | nil =>
      rw [append_nil, append_nil]
      exact decode_poll b
    | cons data t =>
      obtain ⟨hnone,hrest⟩ := decode_cut (t := t) hb (h data hb rfl)
      rw [hnone, hrest]
      rfl
  · rcases poll_append hb t with hsame | hpoll
    · rw [hsame]
      rfl
    · rw [decode_poll, hpoll]

end

/-- The keys returned so far and those still in the buffer are the keys of the stream. -/
theorem run_decode (acts : List Act) (b : List UInt8) (h : Whole acts (some b)) :
    ∃ rest, (run acts (some b)).2 = some rest ∧
      (run acts (some b)).1++decode rest = decode (b++received acts) := by
  induction acts generalizing b with
  | nil => exact ⟨b,rfl,by rw [received, append_nil]; rfl⟩
  | cons act acts ih =>
    cases act with
    | push data =>
      obtain ⟨rest,hrest,hkeys⟩ := ih (b++[data]) h
      refine ⟨rest,hrest,?_⟩
      rw [append_assoc] at hkeys
      exact hkeys
    | poll =>
      obtain ⟨hcut,hwhole⟩ := h
      obtain ⟨rest,hrest,hkeys⟩ := ih (poll b).2 hwhole
      refine ⟨rest,hrest,?_⟩
      change (poll b).1.toList++(run acts (some (poll b).2)).1++decode rest = decode (b++received acts)
      rw [append_assoc, hkeys]
      exact (decode_append fun data => hcut b data rfl).symm

theorem decode_of_settled {b : List UInt8} (h : Settled (some b)) : decode b = [] := by
  have hsame : (poll b).2 = b := some.inj h
  rcases poll_shortens b with hp | hp
  · exact decode_settled hp
  · rw [hsame] at hp
    exact absurd hp (Nat.lt_irrefl _)

theorem run_keys {acts : List Act} (h : Whole acts initBuffer) (hs : Settled (run acts initBuffer).2) :
    (run acts initBuffer).1 = decode (received acts) := by
  obtain ⟨rest,hrest,hkeys⟩ := run_decode acts [] h
  rw [show (run acts initBuffer).2 = some rest from hrest] at hs
  rw [decode_of_settled hs, append_nil, nil_append] at hkeys
  exact hkeys

/-- Two interleavings of one stream give the same keys. -/
theorem keys_independent_of_timing {acts₁ acts₂ : List Act} (hr : received acts₁ = received acts₂)
    (h₁ : Whole acts₁ initBuffer) (h₂ : Whole acts₂ initBuffer)
    (hs₁ : Settled (run acts₁ initBuffer).2) (hs₂ : Settled (run acts₂ initBuffer).2) :
    (run acts₁ initBuffer).1 = (run acts₂ initBuffer).1 := by
  rw [run_keys h₁ hs₁, run_keys h₂ hs₂, hr]

/-- An arrow key, polled for after each byte and only at the end. -/
theorem arrow_independent_of_timing :
    (run [.push esc,.poll,.push 0x5B,.poll,.push 0x41,.poll] initBuffer).1 =
      (run [.push esc,.push 0x5B,.push 0x41,.poll] initBuffer).1 := by
  have hcut : ∀ b, b ∈ [[esc],[esc,0x5B],[esc,0x5B,0x41]] → ¬Cut b := by
    unfold Cut
    decide
  have hwhole : ∀ {b : List UInt8} {acts : List Act}, b ∈ [[esc],[esc,0x5B],[esc,0x5B,0x41]] →
      ∀ b' data, some b = some b' → Cut b' → (received acts).head? = some data → Silent data := by
    intro b acts hb b' data hbb hc
    rw [← some.inj hbb] at hc
    exact absurd hc (hcut b hb)
  apply keys_independent_of_timing
  · rfl
  · exact ⟨hwhole (by decide),hwhole (by decide),hwhole (by decide),trivial⟩
  · exact ⟨hwhole (by decide),trivial⟩
  · rfl
  · rfl

/-- The delete key, when the last byte comes before and after the poll. -/
theorem delete_depends_on_timing : ∃ acts₁ acts₂,
    received acts₁ = [esc,0x5B,0x33,0x7E] ∧ received acts₂ = [esc,0x5B,0x33,0x7E] ∧
    Settled (run acts₁ initBuffer).2 ∧ Settled (run acts₂ initBuffer).2 ∧
    (run acts₁ initBuffer).1 = [keyDelete] ∧ (run acts₂ initBuffer).1 = ['~'] := by
  refine ⟨[.push esc,.push 0x5B,.push 0x33,.push 0x7E,.poll],
    [.push esc,.push 0x5B,.push 0x33,.poll,.push 0x7E,.poll],rfl,rfl,rfl,rfl,rfl,?_⟩
  decide

end Zohara.Keyboard
