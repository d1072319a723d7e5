import Mathlib.Data.Fintype.Card
import Mathlib.Tactic.Ring
import Zohara.QueueLock

/-!
# The ticket lock

Cores share one lock. Every atomic operation of lock, try_lock and of the guard's drop
is one step, in any interleaving: the fetch_add of a ticket, one turn of a spin loop,
the two loads and the compare_exchange of try_lock, the fetch_add of next. The counters
are 32 bits wide and wrap, as the kernel is built (release profile, so current+1 wraps
as well).

The protected value has any type. A core that owns the guard may update it, with one
step that reads and one that writes, as *guard += 1 does. A core that owns the guard may
also call lock or try_lock again.

A guard here remembers the call and the ticket that it was granted for; in the source it
is a reference to the lock and nothing else. No step depends on what is remembered.

The lock implements the queue of QueueLock: drawing a ticket enters the queue, the turn
of a spin loop that sees its own ticket is the grant, and the drop leaves. Fewer than
2^32 cores draw fewer than 2^32 tickets at a time, so equality of counters decides.
-/
namespace Zohara.TicketLock
open Runs List Option Function QueueLock

/-! ## The source -/

structure SpinLock (α : Type) where
  ticket : UInt32
  next : UInt32
  data : α

def new {α : Type} (data : α) : SpinLock α := ⟨0,0,data⟩

inductive Call where
  | lock
  | tryLock
  deriving DecidableEq

/-- Where a core is in the code. -/
inductive Pc (α : Type) where
  | idle
  /-- In a spin loop with its ticket. -/
  | spinning (call : Call) (ticket : UInt32)
  /-- In try_lock, after the load of ticket. -/
  | loaded (current : UInt32)
  /-- In try_lock, after the load of next, which was equal. -/
  | compared (current : UInt32)
  /-- Between the read and the write of an update. -/
  | updating (value : α)

structure Core (α : Type) where
  pc : Pc α
  guard : Option (Call × UInt32)

inductive AtomicOp where
  | fetchAddTicket
  | spin
  | loadTicket
  | loadNext
  | compareExchange
  | drop
  | read
  | write
  deriving DecidableEq

/-- What an operation does for the lock. -/
inductive Outcome where
  | nothing
  | drew (call : Call) (ticket : UInt32)
  | granted (call : Call) (ticket : UInt32)
  | dropped (call : Call) (ticket : UInt32)
  | wrote
  deriving DecidableEq

section
variable {α : Type} (update : α → α)

/-- One atomic operation of one core. -/
def exec (l : SpinLock α) (core : Core α) : AtomicOp → Option (Outcome × SpinLock α × Core α)
  | .fetchAddTicket =>
    match core.pc with
    | .idle => some (.drew .lock l.ticket,{l with ticket := l.ticket+1},
        {core with pc := .spinning .lock l.ticket})
    | _ => none
  | .spin =>
    match core.pc with
    | .spinning call ticket =>
      if l.next ≠ ticket then some (.nothing,l,core)
      else some (.granted call ticket,l,⟨.idle,some (call,ticket)⟩)
    | _ => none
  | .loadTicket =>
    match core.pc with
    | .idle => some (.nothing,l,{core with pc := .loaded l.ticket})
    | _ => none
  | .loadNext =>
    match core.pc with
    | .loaded current =>
      some (.nothing,l,{core with pc := if current = l.next then .compared current else .idle})
    | _ => none
  | .compareExchange =>
    match core.pc with
    | .compared current =>
      if l.ticket = current then
        some (.drew .tryLock current,{l with ticket := current+1},
          {core with pc := .spinning .tryLock current})
      else some (.nothing,l,{core with pc := .idle})
    | _ => none
  | .drop =>
    match core.pc,core.guard with
    | .idle,some (call,ticket) =>
      some (.dropped call ticket,{l with next := l.next+1},{core with guard := none})
    | _,_ => none
  | .read =>
    match core.pc,core.guard with
    | .idle,some _ => some (.nothing,l,{core with pc := .updating l.data})
    | _,_ => none
  | .write =>
    match core.pc with
    | .updating value => some (.wrote,{l with data := update value},{core with pc := .idle})
    | _ => none

end

/-! ## Interleavings -/

structure System (N : ℕ) (α : Type) where
  lock : SpinLock α
  core : Fin N → Core α

/-- The state after an operation of one core. -/
def System.put {N : ℕ} {α : Type} (s : System N α) (c : Fin N) (l : SpinLock α) (core : Core α) :
    System N α := ⟨l,Function.update s.core c core⟩

structure Label (N : ℕ) where
  core : Fin N
  op : AtomicOp
  outcome : Outcome

section
variable {N : ℕ} {α : Type} (update : α → α)

def boot (N : ℕ) (data : α) : System N α := ⟨new data,fun _ => ⟨.idle,none⟩⟩

def Step (s : System N α) (a : Label N) (s' : System N α) : Prop :=
  ∃ l core, exec update s.lock (s.core a.core) a.op = some (a.outcome,l,core) ∧
    s' = s.put a.core l core

variable (s : System N α) (c : Fin N) (l : SpinLock α) (core : Core α)

@[simp] theorem System.put_lock : (s.put c l core).lock = l := rfl

@[simp] theorem System.put_self : (s.put c l core).core c = core := update_self ..

theorem System.put_other {d : Fin N} (h : d ≠ c) : (s.put c l core).core d = s.core d :=
  update_of_ne h ..

/-! ## The queue behind the lock -/

/-- A call for the lock. -/
structure Entry (N : ℕ) where
  core : Fin N
  call : Call
  ticket : UInt32
  deriving DecidableEq

def Label.queueOp (a : Label N) : Option (QueueLock.Op (Entry N)) :=
  match a.outcome with
  | .drew call ticket => some (.enter ⟨a.core,call,ticket⟩)
  | .granted call ticket => some (.grant ⟨a.core,call,ticket⟩)
  | .dropped call ticket => some (.leave ⟨a.core,call,ticket⟩)
  | _ => none

def queueOps (h : List (Label N)) : List (QueueLock.Op (Entry N)) := h.filterMap Label.queueOp

/-- The calls in the order in which they drew their tickets. -/
def drawn (h : List (Label N)) : List (Entry N) := QueueLock.entered (queueOps h)

/-- The calls in the order in which they were granted the lock. -/
def granted (h : List (Label N)) : List (Entry N) := QueueLock.granted (queueOps h)

/-- The number of updates made. -/
def writes (h : List (Label N)) : ℕ := h.countP fun a => a.outcome = .wrote

/-- The lock and its cores stand for a queue. -/
structure Represents (s : System N α) (q : QueueLock.Queue (Entry N)) : Prop where
  ticket : s.lock.ticket = UInt32.ofNat (q.first+q.waiting.length)
  next : s.lock.next = UInt32.ofNat q.served
  numbered : ∀ i e, q.waiting[i]? = some e → e.ticket = UInt32.ofNat (q.first+i)
  spinning : ∀ e, e ∈ q.waiting ↔ (s.core e.core).pc = .spinning e.call e.ticket
  cores : (q.waiting.map Entry.core).Nodup
  guard : ∀ e, q.holder = some e ↔ (s.core e.core).guard = some (e.call,e.ticket)
  current : ∀ e, q.holder = some e → e.ticket = s.lock.next

end

/-! ## Counters -/

/-- Counters that are less than 2^32 apart are told from their 32 bits. -/
theorem ofNat_inj {a b : ℕ} (hab : a ≤ b) (hlt : b-a < 2^32)
    (h : UInt32.ofNat a = UInt32.ofNat b) : a = b := by
  have hm : a%2^32 = b%2^32 := by
    have := congrArg UInt32.toNat h
    rwa [UInt32.toNat_ofNat', UInt32.toNat_ofNat'] at this
  omega

theorem ofNat_succ (n : ℕ) : UInt32.ofNat n+1 = UInt32.ofNat (n+1) :=
  (UInt32.ofNat_add n 1).symm

/-! ## What one operation does -/

section
variable {α : Type} (update : α → α)

/-- The operations, by what they do for the lock. -/
def Effect (l : SpinLock α) (core : Core α) : Outcome → SpinLock α → Core α → Prop
  | .nothing,l',core' => l' = l ∧ core'.guard = core.guard ∧
      (∀ call t, core'.pc = .spinning call t ↔ core.pc = .spinning call t) ∧
      ∀ v, core'.pc = .updating v → core.guard ≠ none ∧ v = l.data ∨ core.pc = .updating v
  | .drew call t,l',core' => t = l.ticket ∧ (∀ call t, core.pc ≠ .spinning call t) ∧
      l' = {l with ticket := l.ticket+1} ∧ core' = {core with pc := .spinning call t}
  | .granted call t,l',core' => core.pc = .spinning call t ∧ l.next = t ∧ l' = l ∧
      core' = ⟨.idle,some (call,t)⟩
  | .dropped call t,l',core' => core.pc = .idle ∧ core.guard = some (call,t) ∧
      l' = {l with next := l.next+1} ∧ core' = {core with guard := none}
  | .wrote,l',core' => ∃ v, core.pc = .updating v ∧ l' = {l with data := update v} ∧
      core' = {core with pc := .idle}

theorem exec_effect {l l' : SpinLock α} {core core' : Core α} {op : AtomicOp} {o : Outcome}
    (h : exec update l core op = some (o,l',core')) : Effect update l core o l' core' := by
  obtain ⟨pc,guard⟩ := core
  cases op with
  | fetchAddTicket =>
    cases pc with
    | idle =>
      cases h
      exact ⟨rfl,by simp,rfl,rfl⟩
    | _ => cases h
  | spin =>
    cases pc with
    | spinning call t =>
      change (if l.next ≠ t then _ else _) = _ at h
      split_ifs at h with hn
      · cases h
        exact ⟨rfl,rfl,fun _ _ => Iff.rfl,fun v hv => .inr hv⟩
      · cases h
        exact ⟨rfl,not_not.mp hn,rfl,rfl⟩
    | _ => cases h
  | loadTicket =>
    cases pc with
    | idle =>
      cases h
      exact ⟨rfl,rfl,by simp,by simp⟩
    | _ => cases h
  | loadNext =>
    cases pc with
    | loaded current =>
      cases h
      refine ⟨rfl,rfl,?_,?_⟩
      all_goals dsimp only; split_ifs <;> simp
    | _ => cases h
  | compareExchange =>
    cases pc with
    | compared current =>
      change (if l.ticket = current then _ else _) = _ at h
      split_ifs at h with hc
      · subst hc
        cases h
        exact ⟨rfl,by simp,rfl,rfl⟩
      · cases h
        exact ⟨rfl,rfl,by simp,by simp⟩
    | _ => cases h
  | drop =>
    cases pc with
    | idle =>
      cases guard with
      | none => cases h
      | some g =>
        cases h
        exact ⟨rfl,rfl,rfl,rfl⟩
    | _ => cases h
  | read =>
    cases pc with
    | idle =>
      cases guard with
      | none => cases h
      | some g =>
        cases h
        refine ⟨rfl,rfl,by simp,fun v hv => .inl ⟨by simp,?_⟩⟩
        cases hv
        rfl
    | _ => cases h
  | write =>
    cases pc with
    | updating v =>
      cases h
      exact ⟨v,rfl,rfl,rfl⟩
    | _ => cases h

end

/-! ## The lock implements the queue -/

section
variable {N : ℕ} {α : Type} {update : α → α} {s s' : System N α}
  {q : QueueLock.Queue (Entry N)}

theorem represents_boot (v : α) : Represents (boot N v) QueueLock.Queue.empty := by
  refine ⟨rfl,rfl,by simp [QueueLock.Queue.empty],?_,nodup_nil,?_,?_⟩
  · simp [QueueLock.Queue.empty, boot]
  · simp [QueueLock.Queue.empty, boot]
  · simp [QueueLock.Queue.empty]

theorem Represents.waiting_le (h : Represents s q) : q.waiting.length ≤ N := by
  have hc := h.cores.length_le_card
  rwa [length_map, Fintype.card_fin] at hc

variable {c : Fin N}

theorem Represents.waiting_lt (h : Represents s q)
    (hc : ∀ call t, (s.core c).pc ≠ .spinning call t) : q.waiting.length < N := by
  have hn : (c::q.waiting.map Entry.core).Nodup := by
    refine nodup_cons.mpr ⟨fun hin => ?_,h.cores⟩
    obtain ⟨e,he,rfl⟩ := mem_map.mp hin
    exact hc _ _ ((h.spinning e).mp he)
  have hlen := hn.length_le_card
  rw [length_cons, length_map, Fintype.card_fin] at hlen
  exact hlen

theorem first_le (q : QueueLock.Queue (Entry N)) : q.first ≤ q.served+1 := by
  unfold QueueLock.Queue.first
  cases q.holder <;> simp

/-- A spinning core sees its own ticket only at the head of the queue of a free lock. -/
theorem Represents.head (hN : N < 2^32) (h : Represents s q) {e : Entry N}
    (hpc : (s.core e.core).pc = .spinning e.call e.ticket) (hnext : s.lock.next = e.ticket) :
    ∃ rest, q = ⟨q.served,none,e::rest⟩ := by
  have hmem := (h.spinning e).mpr hpc
  obtain ⟨i,hi,hget⟩ := mem_iff_getElem.mp hmem
  have hnum := h.numbered i e (by rw [getElem?_eq_getElem hi, hget])
  have hle := first_le q
  have hlen := h.waiting_le
  have hserved : q.served ≤ q.first := Nat.le_add_right _ _
  have heq : q.served = q.first+i := by
    refine ofNat_inj (by omega) (by omega) ?_
    rw [← h.next, hnext, hnum]
  obtain ⟨served,holder,waiting⟩ := q
  cases holder with
  | some e' =>
    unfold QueueLock.Queue.first at heq
    simp at heq
    omega
  | none =>
    have hi0 : i = 0 := by omega
    subst hi0
    cases waiting with
    | nil => cases hmem
    | cons e' rest =>
      obtain rfl : e' = e := hget
      exact ⟨rest,rfl⟩

theorem Represents.quiet (h : Represents s q) {l : SpinLock α} {core : Core α}
    (ht : l.ticket = s.lock.ticket) (hn : l.next = s.lock.next)
    (hg : core.guard = (s.core c).guard)
    (hpc : ∀ call t, core.pc = .spinning call t ↔ (s.core c).pc = .spinning call t) :
    Represents (s.put c l core) q := by
  refine ⟨ht.trans h.ticket,hn.trans h.next,h.numbered,fun e => ?_,h.cores,
    fun e => ?_,fun e he => (h.current e he).trans hn.symm⟩
  · rw [h.spinning]
    by_cases he : e.core = c
    · rw [he, System.put_self, hpc]
    · rw [System.put_other _ _ _ _ he]
  · rw [h.guard]
    by_cases he : e.core = c
    · rw [he, System.put_self, hg]
    · rw [System.put_other _ _ _ _ he]

theorem Represents.draw (h : Represents s q) (call : Call)
    (hpc : ∀ call t, (s.core c).pc ≠ .spinning call t) :
    Represents (s.put c {s.lock with ticket := s.lock.ticket+1}
        {s.core c with pc := .spinning call s.lock.ticket})
      {q with waiting := q.waiting++[⟨c,call,s.lock.ticket⟩]} := by
  have hout : ∀ e ∈ q.waiting, e.core ≠ c := by
    rintro e he rfl
    exact hpc _ _ ((h.spinning e).mp he)
  refine ⟨?_,h.next,fun i e hi => ?_,fun e => ?_,?_,fun e => ?_,h.current⟩
  · dsimp only
    rw [h.ticket, ofNat_succ, length_append]
    rfl
  · dsimp only at hi ⊢
    by_cases hlt : i < q.waiting.length
    · rw [getElem?_append_left hlt] at hi
      exact h.numbered i e hi
    · rw [getElem?_append_right (by omega)] at hi
      have hi0 : i-q.waiting.length = 0 := by
        by_contra hne
        rw [getElem?_eq_none (by rw [length_singleton]; omega)] at hi
        cases hi
      rw [hi0] at hi
      cases hi
      have hi' : i = q.waiting.length := by omega
      rw [hi']
      exact h.ticket
  · dsimp only
    rw [mem_append, mem_singleton]
    by_cases he : e.core = c
    · rw [he, System.put_self]
      constructor
      · rintro (hin | rfl)
        · exact (hout e hin he).elim
        · rfl
      · intro hp
        obtain ⟨hcall,hticket⟩ := Pc.spinning.inj hp
        refine .inr ?_
        obtain ⟨core,call',ticket⟩ := e
        cases he
        cases hcall
        cases hticket
        rfl
    · rw [System.put_other _ _ _ _ he, ← h.spinning]
      refine or_iff_left fun hc => he ?_
      rw [hc]
  · rw [map_append]
    refine h.cores.append (nodup_singleton _) fun d hd hd' => ?_
    obtain ⟨e,he,rfl⟩ := mem_map.mp hd
    rw [map_singleton, mem_singleton] at hd'
    exact hout e he hd'
  · dsimp only
    rw [h.guard]
    by_cases he : e.core = c
    · rw [he, System.put_self]
    · rw [System.put_other _ _ _ _ he]

theorem Represents.grant {served : ℕ} {e : Entry N} {rest : List (Entry N)}
    (h : Represents s ⟨served,none,e::rest⟩) :
    Represents (s.put e.core s.lock ⟨.idle,some (e.call,e.ticket)⟩)
      ⟨served,some e,rest⟩ := by
  have hcores := h.cores
  rw [map_cons, nodup_cons] at hcores
  have hfirst : (⟨served,some e,rest⟩ : QueueLock.Queue (Entry N)).first = served+1 := rfl
  have hold : (⟨served,none,e::rest⟩ : QueueLock.Queue (Entry N)).first = served := rfl
  have hout : ∀ e' ∈ rest, e'.core ≠ e.core := fun e' he' hc =>
    hcores.1 (hc ▸ mem_map_of_mem he')
  refine ⟨?_,h.next,fun i e' hi => ?_,fun e' => ?_,hcores.2,fun e' => ?_,fun e' he => ?_⟩
  · have ht := h.ticket
    rw [hold, length_cons] at ht
    rw [hfirst, System.put_lock, ht]
    congr 1
    dsimp only
    omega
  · have hn := h.numbered (i+1) e' hi
    rw [hold] at hn
    rw [hfirst, hn]
    congr 1
    omega
  · dsimp only
    by_cases he : e'.core = e.core
    · rw [he, System.put_self]
      constructor
      · exact fun hin => (hout e' hin he).elim
      · intro hp
        cases hp
    · rw [System.put_other _ _ _ _ he, ← h.spinning, mem_cons]
      refine ⟨.inr,fun hin => hin.resolve_left fun hc => he ?_⟩
      rw [hc]
  · dsimp only
    by_cases he : e'.core = e.core
    · rw [he, System.put_self, Option.some.injEq, Option.some.injEq, Prod.mk.injEq]
      constructor
      · rintro rfl
        exact ⟨rfl,rfl⟩
      · rintro ⟨hcall,hticket⟩
        obtain ⟨core,call,ticket⟩ := e'
        cases he
        cases hcall
        cases hticket
        rfl
    · rw [System.put_other _ _ _ _ he, ← h.guard]
      constructor
      · rintro hs
        exact (he (congrArg Entry.core (some.inj hs)).symm).elim
      · rintro hs
        cases hs
  · cases he
    have hn := h.numbered 0 e rfl
    rw [hold] at hn
    rw [hn, System.put_lock, h.next]
    rfl

theorem Represents.drop {served : ℕ} {e : Entry N} {waiting : List (Entry N)}
    (h : Represents s ⟨served,some e,waiting⟩) :
    Represents (s.put e.core {s.lock with next := s.lock.next+1}
        {s.core e.core with guard := none})
      ⟨served+1,none,waiting⟩ := by
  refine ⟨h.ticket,?_,h.numbered,fun e' => ?_,h.cores,fun e' => ?_,fun e' he => by cases he⟩
  · rw [System.put_lock]
    dsimp only
    rw [h.next, ofNat_succ]
  · dsimp only
    rw [h.spinning]
    by_cases he : e'.core = e.core
    · rw [he, System.put_self]
    · rw [System.put_other _ _ _ _ he]
  · dsimp only
    by_cases he : e'.core = e.core
    · rw [he, System.put_self]
      simp
    · rw [System.put_other _ _ _ _ he, ← h.guard]
      constructor
      · rintro hs
        cases hs
      · rintro hs
        exact (he (congrArg Entry.core (some.inj hs)).symm).elim

/-- Every step of a core is a step of the queue, or none. -/
theorem step_simulates (hN : N < 2^32) {a : Label N} (h : Represents s q)
    (hs : Step update s a s') : ∃ q', Represents s' q' ∧
      ((a.queueOp = none ∧ q' = q) ∨ ∃ op, a.queueOp = some op ∧ QueueLock.Step q op q') := by
  obtain ⟨c,op,o⟩ := a
  obtain ⟨l,core,hexec,rfl⟩ := hs
  have heff := exec_effect update hexec
  cases o with
  | nothing =>
    obtain ⟨rfl,hg,hpc,-⟩ := heff
    exact ⟨q,h.quiet rfl rfl hg hpc,.inl ⟨rfl,rfl⟩⟩
  | drew call t =>
    obtain ⟨rfl,hpc,rfl,rfl⟩ := heff
    exact ⟨_,h.draw call hpc,.inr ⟨_,rfl,.enter q _⟩⟩
  | granted call t =>
    obtain ⟨hpc,hnext,rfl,rfl⟩ := heff
    obtain ⟨rest,hq⟩ := h.head (e := ⟨c,call,t⟩) hN hpc hnext
    rw [hq] at h ⊢
    exact ⟨_,h.grant,.inr ⟨_,rfl,.grant _ _ _⟩⟩
  | dropped call t =>
    obtain ⟨hpc,hg,rfl,rfl⟩ := heff
    have hholder := (h.guard ⟨c,call,t⟩).mpr hg
    obtain ⟨served,holder,waiting⟩ := q
    obtain rfl : holder = some ⟨c,call,t⟩ := hholder
    exact ⟨_,h.drop,.inr ⟨_,rfl,.leave _ _ _⟩⟩
  | wrote =>
    obtain ⟨v,hpc,rfl,rfl⟩ := heff
    refine ⟨q,h.quiet rfl rfl rfl fun call t => ?_,.inl ⟨rfl,rfl⟩⟩
    rw [hpc]
    simp

variable {h : List (Label N)}

theorem run_simulates (hN : N < 2^32) {q₀ : QueueLock.Queue (Entry N)} {s₀ : System N α} (h₀ : Represents s₀ q₀) (r : Run (Step update) s₀ h s) :
    ∃ q, Represents s q ∧ Run QueueLock.Step q₀ (queueOps h) q := by
  induction r with
  | start => exact ⟨q₀,h₀,.start⟩
  | @next h s s' a _ hs ih =>
    obtain ⟨q,hq,hr⟩ := ih
    obtain ⟨q',hq',hop⟩ := step_simulates hN hq hs
    refine ⟨q',hq',?_⟩
    unfold queueOps at hr ⊢
    rcases hop with ⟨hnone,rfl⟩ | ⟨op,hsome,hstep⟩
    · rw [filterMap_cons_none hnone]
      exact hr
    · rw [filterMap_cons_some hsome]
      exact .next hr hstep

theorem Represents.one_guard (h : Represents s q) {c d : Fin N} (hc : (s.core c).guard ≠ none)
    (hd : (s.core d).guard ≠ none) : c = d := by
  obtain ⟨⟨call,t⟩,hc⟩ := ne_none_iff_exists'.mp hc
  obtain ⟨⟨call',t'⟩,hd⟩ := ne_none_iff_exists'.mp hd
  have h₁ := (h.guard ⟨c,call,t⟩).mpr hc
  have h₂ := (h.guard ⟨d,call',t'⟩).mpr hd
  exact congrArg Entry.core (some.inj (h₁.symm.trans h₂))

end

/-! ## try_lock -/

section
variable {N : ℕ} {α : Type} {update : α → α} {s s' : System N α}

theorem run_core (r : Run (Step update) s h s')
    (hc : ∀ a ∈ h, a.core ≠ c) : s'.core c = s.core c := by
  induction r with
  | start => rfl
  | @next h m m' a _ hs ih =>
    obtain ⟨l,core,-,rfl⟩ := hs
    rw [System.put_other _ _ _ _ (hc a mem_cons_self).symm]
    exact ih (forall_mem_cons.mp hc).2

theorem step_loadTicket {o : Outcome} (hs : Step update s ⟨c,.loadTicket,o⟩ s') :
    s'.lock = s.lock ∧ (s'.core c).pc = .loaded s.lock.ticket := by
  obtain ⟨l,core,hexec,rfl⟩ := hs
  dsimp only [exec] at hexec
  cases hpc : (s.core c).pc with
  | idle =>
    rw [hpc] at hexec
    cases hexec
    exact ⟨rfl,by rw [System.put_self]⟩
  | _ =>
    rw [hpc] at hexec
    cases hexec

theorem step_loadNext {o : Outcome} {current : UInt32}
    (hpc : (s.core c).pc = .loaded current) (hs : Step update s ⟨c,.loadNext,o⟩ s') :
    (s'.core c).pc = if current = s.lock.next then .compared current else .idle := by
  obtain ⟨l,core,hexec,rfl⟩ := hs
  dsimp only [exec] at hexec
  rw [hpc] at hexec
  cases hexec
  rw [System.put_self]

theorem step_compareExchange {t : UInt32}
    (hs : Step update s ⟨c,.compareExchange,.drew .tryLock t⟩ s') :
    (s.core c).pc = .compared t ∧ s.lock.ticket = t := by
  obtain ⟨l,core,hexec,rfl⟩ := hs
  dsimp only [exec] at hexec
  cases hpc : (s.core c).pc with
  | compared current =>
    rw [hpc] at hexec
    dsimp only at hexec
    split_ifs at hexec with ht
    · cases hexec
      exact ⟨rfl,ht⟩
    · cases hexec
  | _ =>
    rw [hpc] at hexec
    cases hexec

theorem queueOps_append (l h : List (Label N)) : queueOps (l++h) = queueOps l++queueOps h :=
  filterMap_append ..

theorem drawn_length_append (l h : List (Label N)) :
    (drawn (l++h)).length = (drawn h).length+(drawn l).length := by
  unfold drawn
  rw [queueOps_append, entered_append, length_append]

theorem queue_empty {q : QueueLock.Queue (Entry N)} {n : ℕ} (hn : n ≤ q.served)
    (hlen : q.first+q.waiting.length = n) : q = ⟨n,none,[]⟩ := by
  obtain ⟨served,holder,waiting⟩ := q
  cases holder with
  | none =>
    have hw : waiting.length = 0 := by
      unfold QueueLock.Queue.first at hlen
      simp at hlen hn
      omega
    have hs : served = n := by
      unfold QueueLock.Queue.first at hlen
      simp at hlen hn
      omega
    rw [length_eq_zero_iff.mp hw, hs]
  | some e =>
    unfold QueueLock.Queue.first at hlen
    simp at hlen hn
    omega

/-- When the compare_exchange of a try_lock succeeds and fewer than 2^32 tickets have been
drawn since its first load, the queue is empty. -/
theorem exchange_queue (hN : N < 2^32) {v : α} {t : UInt32} {h₁ h₂ h₃ : List (Label N)}
    (r : Run (Step update) (boot N v)
      (h₃++⟨c,.loadNext,.nothing⟩::(h₂++⟨c,.loadTicket,.nothing⟩::h₁)) s)
    (hs : Step update s ⟨c,.compareExchange,.drew .tryLock t⟩ s')
    (hc₂ : ∀ a ∈ h₂, a.core ≠ c) (hc₃ : ∀ a ∈ h₃, a.core ≠ c)
    (hfew : (drawn h₂).length+(drawn h₃).length < 2^32) :
    ∃ n, t = UInt32.ofNat n ∧ Represents s ⟨n,none,[]⟩ := by
  obtain ⟨s₄,r₄,r₄₅⟩ := r.split h₃
  cases r₄ with
  | @next _ s₃ _ _ r₃ hs₄ =>
  obtain ⟨s₂,r₂,r₂₃⟩ := r₃.split h₂
  cases r₂ with
  | @next _ s₁ _ _ r₁ hs₂ =>
  obtain ⟨q₁,hq₁,hr₁⟩ := run_simulates hN (represents_boot v) r₁
  obtain ⟨q₃,hq₃,hr₃⟩ := run_simulates hN (represents_boot v) r₃
  obtain ⟨q₅,hq₅,hr₅⟩ := run_simulates hN (represents_boot v) r
  have hpc₃ : (s₃.core c).pc = .loaded s₁.lock.ticket := by
    rw [run_core r₂₃ hc₂]
    exact (step_loadTicket hs₂).2
  have hpc₄ := step_loadNext hpc₃ hs₄
  obtain ⟨hpc₅,hticket⟩ := step_compareExchange hs
  rw [run_core r₄₅ hc₃, hpc₄] at hpc₅
  split_ifs at hpc₅ with hnext
  have ht : s₁.lock.ticket = t := Pc.compared.inj hpc₅
  have hd₁ := run_length hr₁
  have hd₃ := run_length hr₃
  have hd₅ := run_length hr₅
  have hd₂₃ : (drawn (h₂++⟨c,.loadTicket,.nothing⟩::h₁)).length =
      (drawn h₁).length+(drawn h₂).length := drawn_length_append _ _
  have hd₄₅ : (drawn (h₃++⟨c,.loadNext,.nothing⟩::(h₂++⟨c,.loadTicket,.nothing⟩::h₁))).length =
      (drawn (h₂++⟨c,.loadTicket,.nothing⟩::h₁)).length+(drawn h₃).length :=
    drawn_length_append _ _
  unfold drawn at hfew hd₂₃ hd₄₅
  have hsame : q₁.first+q₁.waiting.length = q₅.first+q₅.waiting.length := by
    refine ofNat_inj (by omega) (by omega) ?_
    rw [← hq₁.ticket, ← hq₅.ticket, ht, hticket]
  have hroom := hq₃.waiting_lt (c := c) (by rw [hpc₃]; simp)
  have hfirst := first_le q₃
  have hserved : q₃.served = q₃.first+q₃.waiting.length := by
    have hle : q₃.served ≤ q₃.first := Nat.le_add_right _ _
    refine ofNat_inj (by omega) (by omega) ?_
    rw [← hq₃.next, ← hnext, hq₁.ticket]
    congr 1
    omega
  have hleft : q₅.served = q₃.served+QueueLock.left (queueOps h₃) := by
    rw [← run_left hr₅, ← run_left hr₃, queueOps_append,
      left_append]
    rfl
  refine ⟨q₃.served,?_,?_⟩
  · rw [← hq₃.next, ← hnext, ht]
  · rw [← queue_empty (q := q₅) (n := q₃.served) (by omega) (by omega)]
    exact hq₅

/-- After such an exchange, whatever the other cores do, nobody holds the lock and the next
turn of the spin loop obtains it. -/
theorem exchange_obtains (hN : N < 2^32) {v : α} {t : UInt32}
    {h₁ h₂ h₃ h' : List (Label N)} {s'' : System N α}
    (r : Run (Step update) (boot N v)
      (h₃++⟨c,.loadNext,.nothing⟩::(h₂++⟨c,.loadTicket,.nothing⟩::h₁)) s)
    (hs : Step update s ⟨c,.compareExchange,.drew .tryLock t⟩ s')
    (hc₂ : ∀ a ∈ h₂, a.core ≠ c) (hc₃ : ∀ a ∈ h₃, a.core ≠ c)
    (hfew : (drawn h₂).length+(drawn h₃).length < 2^32)
    (r' : Run (Step update) s' h' s'') (hc' : ∀ a ∈ h', a.core ≠ c) :
    (∀ d, (s''.core d).guard = none) ∧ s''.lock.next = t ∧
      (s''.core c).pc = .spinning .tryLock t := by
  obtain ⟨n,rfl,hq⟩ := exchange_queue hN r hs hc₂ hc₃ hfew
  obtain ⟨q',hq',hop⟩ := step_simulates hN hq hs
  rcases hop with ⟨hnone,-⟩ | ⟨op,hop,hstep⟩
  · cases hnone
  · cases hop
    cases hstep with
    | enter =>
    obtain ⟨q'',hq'',hr''⟩ := run_simulates hN hq' r'
    have hgrant : QueueLock.Op.grant ⟨c,.tryLock,UInt32.ofNat n⟩ ∉ queueOps h' := by
      intro hin
      obtain ⟨a,ha,hop⟩ := mem_filterMap.mp hin
      refine hc' a ha ?_
      obtain ⟨d,op,o⟩ := a
      cases o with
      | granted call t =>
        cases hop
        rfl
      | _ => cases hop
    obtain ⟨hholder,hhead,hserved⟩ := run_head hr'' rfl rfl hgrant
    refine ⟨fun d => ?_,?_,?_⟩
    · by_contra hd
      obtain ⟨⟨call,t⟩,hd⟩ := ne_none_iff_exists'.mp hd
      have hsome := (hq''.guard ⟨d,call,t⟩).mpr hd
      rw [hholder] at hsome
      cases hsome
    · rw [hq''.next, hserved]
    · exact (hq''.spinning ⟨c,.tryLock,UInt32.ofNat n⟩).mp (mem_of_mem_head? hhead)

end

/-! ## The protected value -/

section
variable {N : ℕ} {α : Type} {update : α → α} {v : α} {s s' : System N α}

/-- The value has seen every update, and a core in the middle of one has read the latest
value. -/
structure DataOk (update : α → α) (v : α) (h : List (Label N)) (s : System N α) : Prop where
  value : s.lock.data = update^[writes h] v
  reading : ∀ c x, (s.core c).pc = .updating x → (s.core c).guard ≠ none ∧ x = s.lock.data

theorem writes_cons (a : Label N) (h : List (Label N)) :
    writes (a::h) = writes h+if a.outcome = .wrote then 1 else 0 := by
  unfold writes
  rw [countP_cons]
  simp

theorem DataOk.keep {a : Label N} {l : SpinLock α} {core : Core α}
    (ok : DataOk update v h s) (ha : a.outcome ≠ .wrote) (hdata : l.data = s.lock.data)
    (hcore : ∀ x, core.pc = .updating x → core.guard ≠ none ∧ x = s.lock.data) :
    DataOk update v (a::h) (s.put a.core l core) := by
  refine ⟨?_,fun c x hx => ?_⟩
  · rw [System.put_lock, hdata, ok.value, writes_cons, if_neg ha]
    rfl
  · rw [System.put_lock, hdata]
    by_cases hc : c = a.core
    · rw [hc, System.put_self] at hx ⊢
      exact hcore x hx
    · rw [System.put_other _ _ _ _ hc] at hx ⊢
      exact ok.reading c x hx

theorem DataOk.step {q : QueueLock.Queue (Entry N)} {a : Label N}
    (hq : Represents s q) (ok : DataOk update v h s) (hs : Step update s a s') :
    DataOk update v (a::h) s' := by
  obtain ⟨c,op,o⟩ := a
  obtain ⟨l,core,hexec,rfl⟩ := hs
  have heff := exec_effect update hexec
  cases o with
  | nothing =>
    obtain ⟨rfl,hg,-,hread⟩ := heff
    refine ok.keep (by simp) rfl fun x hx => ?_
    rw [hg]
    rcases hread x hx with hnew | hold
    · exact hnew
    · exact ok.reading c x hold
  | drew call t =>
    obtain ⟨-,-,rfl,rfl⟩ := heff
    exact ok.keep (by simp) rfl fun x hx => by cases hx
  | granted call t =>
    obtain ⟨-,-,rfl,rfl⟩ := heff
    exact ok.keep (by simp) rfl fun x hx => by cases hx
  | dropped call t =>
    obtain ⟨hidle,-,rfl,rfl⟩ := heff
    refine ok.keep (by simp) rfl fun x hx => ?_
    dsimp only at hx
    rw [hidle] at hx
    cases hx
  | wrote =>
    obtain ⟨x,hpc,rfl,rfl⟩ := heff
    obtain ⟨hguard,rfl⟩ := ok.reading c x hpc
    refine ⟨?_,fun d y hy => ?_⟩
    · rw [System.put_lock, writes_cons, if_pos rfl, iterate_succ_apply', ← ok.value]
    · by_cases hd : d = c
      · rw [hd, System.put_self] at hy
        cases hy
      · rw [System.put_other _ _ _ _ hd] at hy
        exact (hd (hq.one_guard (ok.reading d y hy).1 hguard)).elim

theorem run_data (hN : N < 2^32) (r : Run (Step update) (boot N v) h s) : DataOk update v h s := by
  induction r with
  | start => exact ⟨rfl,fun c x hx => by cases hx⟩
  | next r hs ih =>
    obtain ⟨q,hq,-⟩ := run_simulates hN (represents_boot v) r
    exact ih.step hq hs

end

/-! ## The lock -/

/-- What holds in every interleaving of fewer than 2^32 cores: one guard at a time, with the
ticket that next shows; grants in the order of the tickets; a try_lock whose exchange succeeds
finds the lock free, unless 2^32 tickets have been drawn since its first load; and no update of
the protected value is lost. -/
theorem spinlock_spec {N : ℕ} (hN : N < 2^32) {α : Type} (update : α → α) (v : α)
    {h : List (Label N)} {s : System N α} (r : Run (Step update) (boot N v) h s) :
    (∀ c d, (s.core c).guard ≠ none → (s.core d).guard ≠ none → c = d) ∧
    (∀ c call t, (s.core c).guard = some (call,t) → t = s.lock.next) ∧
    granted h <+: drawn h ∧
    (∀ c t h₁ h₂ h₃ s' h' s'',
      h = h₃++⟨c,.loadNext,.nothing⟩::(h₂++⟨c,.loadTicket,.nothing⟩::h₁) →
      (∀ a ∈ h₂, a.core ≠ c) → (∀ a ∈ h₃, a.core ≠ c) →
      (drawn h₂).length+(drawn h₃).length < 2^32 →
      Step update s ⟨c,.compareExchange,.drew .tryLock t⟩ s' →
      Run (Step update) s' h' s'' → (∀ a ∈ h', a.core ≠ c) →
      (∀ d, (s''.core d).guard = none) ∧ s''.lock.next = t ∧
        (s''.core c).pc = .spinning .tryLock t) ∧
    s.lock.data = update^[writes h] v := by
  obtain ⟨q,hq,hr⟩ := run_simulates hN (represents_boot v) r
  refine ⟨fun c d => hq.one_guard,fun c call t hg => ?_,run_fifo hr,?_,
    (run_data hN r).value⟩
  · exact hq.current ⟨c,call,t⟩ ((hq.guard ⟨c,call,t⟩).mpr hg)
  · intro c t h₁ h₂ h₃ s' h' s'' hh hc₂ hc₃ hfew hs r' hc'
    rw [hh] at r
    exact exchange_obtains hN r hs hc₂ hc₃ hfew r' hc'

/-- Two cores and a counter: one core increments it under lock, then the other one calls
try_lock. -/
theorem spinlock_spec_two_cores : ∃ (h : List (Label 2)) (s s' : System 2 UInt64),
    Run (Step (·+1)) (boot 2 0) h s ∧ writes h = 1 ∧ s.lock.data = (·+1)^[1] 0 ∧
    Step (·+1) s ⟨1,.compareExchange,.drew .tryLock 1⟩ s' ∧
    (∀ d, (s'.core d).guard = none) ∧ s'.lock.next = 1 ∧
      (s'.core 1).pc = .spinning .tryLock 1 := by
  have run : Run (Step (·+1)) (boot 2 (0 : UInt64))
      ([]++⟨1,.loadNext,.nothing⟩::([]++⟨1,.loadTicket,.nothing⟩::[⟨0,.drop,.dropped .lock 0⟩,
        ⟨0,.write,.wrote⟩,⟨0,.read,.nothing⟩,⟨0,.spin,.granted .lock 0⟩,
        ⟨0,.fetchAddTicket,.drew .lock 0⟩])) _ :=
    .next (.next (.next (.next (.next (.next (.next .start ⟨_,_,rfl,rfl⟩) ⟨_,_,rfl,rfl⟩)
      ⟨_,_,rfl,rfl⟩) ⟨_,_,rfl,rfl⟩) ⟨_,_,rfl,rfl⟩) ⟨_,_,rfl,rfl⟩) ⟨_,_,rfl,rfl⟩
  obtain ⟨-,-,-,htry,hdata⟩ := spinlock_spec (by decide) (·+1) 0 run
  refine ⟨_,_,_,run,by decide,hdata,⟨_,_,rfl,rfl⟩,?_⟩
  exact htry 1 1 _ [] [] _ [] _ rfl (by simp) (by simp) (by decide) ⟨_,_,rfl,rfl⟩ .start (by simp)

end Zohara.TicketLock
