import Mathlib.Data.List.Nodup
import Mathlib.Logic.Function.Basic

/-!
# Chains of linked members

A chain is a non-empty list whose members are linked one to the next and whose last member
stops. Links and stops are relations of the members alone, so a chain is kept by every change
that keeps them at its members. In another sense of links and stops a part of the chain may be
a chain, `upTo` the first member that stops early; and a chain is extended when its last member is
linked to a new one.

Where the links are a function, `relink` hangs a list of new members behind a member, and the
last of them gets a value that stops.
-/
namespace Zohara.LinkedChain
open List Function
variable {α : Type}

inductive Chain (link : α → α → Prop) (stop : α → Prop) : List α → Prop
  | last {a : α} : stop a → Chain link stop [a]
  | cons {a b : α} {l : List α} : link a b → Chain link stop (b::l) → Chain link stop (a::b::l)

variable {link link' : α → α → Prop} {stop stop' : α → Prop} {l l₁ l₂ : List α} {a b : α}

theorem Chain.ne_nil (h : Chain link stop l) : l ≠ [] := by
  cases h with
  | last _ => exact cons_ne_nil _ _
  | cons _ _ => exact cons_ne_nil _ _

theorem Chain.head (h : Chain link stop (a::b::l)) : link a b := by
  cases h with
  | cons hlink _ => exact hlink

theorem Chain.tail (h : Chain link stop (a::b::l)) : Chain link stop (b::l) := by
  cases h with
  | cons _ hrest => exact hrest

theorem Chain.stops (h : Chain link stop [a]) : stop a := by
  cases h with
  | last hstop => exact hstop

theorem Chain.of_mem (h : Chain link stop l) (ha : a ∈ l) : stop a ∨ ∃ b ∈ l, link a b := by
  induction h with
  | last hstop => exact .inl (mem_singleton.mp ha ▸ hstop)
  | cons hlink _ ih =>
    rcases mem_cons.mp ha with rfl | ha
    · exact .inr ⟨_,mem_cons_of_mem _ mem_cons_self,hlink⟩
    · exact (ih ha).imp_right fun ⟨b,hb,hab⟩ => ⟨b,mem_cons_of_mem _ hb,hab⟩

theorem Chain.mono (h : Chain link stop l) (hl : ∀ x ∈ l, ∀ y ∈ l, link x y → link' x y)
    (hs : ∀ x ∈ l, stop x → stop' x) : Chain link' stop' l := by
  induction h with
  | last hstop => exact .last (hs _ mem_cons_self hstop)
  | cons hlink _ ih =>
    refine .cons (hl _ mem_cons_self _ (mem_cons_of_mem _ mem_cons_self) hlink) ?_
    exact ih (fun x hx y hy => hl x (mem_cons_of_mem _ hx) y (mem_cons_of_mem _ hy))
      (forall_mem_cons.mp hs).2

theorem Chain.suffix (h : Chain link stop (l₁++l₂)) (hne : l₂ ≠ []) : Chain link stop l₂ := by
  induction l₁ with
  | nil => exact h
  | cons a l₁ ih =>
    rw [cons_append] at h
    generalize hl : l₁++l₂ = l at h ih
    cases h with
    | last _ => exact (hne (append_eq_nil_iff.mp hl).2).elim
    | cons _ hrest => exact ih hrest

theorem Chain.link_at (h : Chain link stop (l₁++a::b::l₂)) : link a b :=
  (h.suffix (cons_ne_nil _ _)).head

theorem Chain.link_getD (h : Chain link stop l) (x : α) {i : ℕ} (hi : i+1 < l.length) :
    link (l.getD i x) (l.getD (i+1) x) := by
  induction h generalizing i with
  | last _ =>
    rw [length_singleton] at hi
    omega
  | cons hlink _ ih =>
    cases i with
    | zero => exact hlink
    | succ i => exact ih (Nat.lt_of_succ_lt_succ hi)

/-- The part of a list up to its first early member. -/
def upTo (early : α → Prop) [DecidablePred early] : List α → List α
  | [] => []
  | a::l => if early a then [a] else a::upTo early l

section
variable {early : α → Prop} [DecidablePred early]

theorem upTo_early (h : early a) : upTo early (a::l) = [a] := if_pos h

theorem upTo_cons (h : ¬early a) : upTo early (a::l) = a::upTo early l := if_neg h

theorem exists_upTo (early : α → Prop) [DecidablePred early] (l : List α) :
    ∃ T, l = upTo early l++T ∧ (T ≠ [] → ∃ l₁ x, upTo early l = l₁++[x] ∧ early x) := by
  induction l with
  | nil => exact ⟨[],rfl,fun h => (h rfl).elim⟩
  | cons a l ih =>
    by_cases ha : early a
    · rw [upTo_early ha]
      exact ⟨l,rfl,fun _ => ⟨[],a,rfl,ha⟩⟩
    · obtain ⟨T,hl,hT⟩ := ih
      rw [upTo_cons ha]
      refine ⟨T,by rw [cons_append, ← hl],fun hne => ?_⟩
      obtain ⟨l₁,x,hx,hearly⟩ := hT hne
      exact ⟨a::l₁,x,by rw [hx, cons_append],hearly⟩

theorem exists_upTo_cons (early : α → Prop) [DecidablePred early] (a : α) (l : List α) :
    ∃ R T, upTo early (a::l) = a::R ∧ l = R++T := by
  obtain ⟨T,hl,_⟩ := exists_upTo early l
  rw [upTo]
  split
  · exact ⟨[],l,rfl,rfl⟩
  · exact ⟨_,T,rfl,hl⟩

theorem upTo_sublist : List.Sublist (upTo early l) l := by
  obtain ⟨T,hl,_⟩ := exists_upTo early l
  conv_rhs => rw [hl]
  exact sublist_append_left _ _

theorem Chain.upTo (h : Chain link stop l)
    (hl : ∀ x, ∀ y ∈ l, link x y → ¬early x → link' x y) (hs : ∀ x, stop x → stop' x)
    (he : ∀ x, early x → stop' x) : Chain link' stop' (upTo early l) := by
  induction h with
  | @last x hstop =>
    rw [LinkedChain.upTo, LinkedChain.upTo, ite_self]
    exact .last (hs x hstop)
  | @cons x y l hlink _ ih =>
    by_cases hx : early x
    · rw [upTo_early hx]
      exact .last (he x hx)
    · have hrest := ih fun a b hb => hl a b (mem_cons_of_mem x hb)
      have hxy := hl x y (mem_cons_of_mem x mem_cons_self) hlink hx
      rw [upTo_cons hx]
      by_cases hy : early y
      · rw [upTo_early hy] at hrest ⊢
        exact .cons hxy hrest
      · rw [upTo_cons hy] at hrest ⊢
        exact .cons hxy hrest

end

theorem Chain.cut (h : Chain link stop (l₁++a::l₂))
    (hl : ∀ x ∈ l₁, ∀ y ∈ l₁++[a], link x y → link' x y) (ha : stop' a) :
    Chain link' stop' (l₁++[a]) := by
  induction l₁ with
  | nil => exact .last ha
  | cons x l₁ ih =>
    have hrest := ih ((show Chain link stop ([x]++(l₁++a::l₂)) from h).suffix (by simp))
      fun y hy z hz => hl y (mem_cons_of_mem x hy) z (mem_cons_of_mem x hz)
    cases l₁ with
    | nil => exact .cons (hl x mem_cons_self a (by simp) h.head) hrest
    | cons y l₁ => exact .cons (hl x mem_cons_self y (by simp) h.head) hrest

theorem Chain.extend (h : Chain link stop (l₁++[a])) (h' : Chain link' stop' (b::l₂))
    (hl : ∀ x ∈ l₁, ∀ y, link x y → link' x y) (hab : link' a b) :
    Chain link' stop' (l₁++a::b::l₂) := by
  induction l₁ with
  | nil => exact .cons hab h'
  | cons x l₁ ih =>
    cases l₁ with
    | nil => exact .cons (hl x mem_cons_self _ h.head) (.cons hab h')
    | cons y l₁ =>
      exact .cons (hl x mem_cons_self _ h.head)
        (ih h.tail (forall_mem_cons.mp hl).2)

/-! ## Functional links -/

section
variable [DecidableEq α] {f : α → α} {S : α → Prop} {eoc : α}

/-- New members behind `a`, one after the other. -/
def relink (eoc : α) : (α → α) → α → List α → α → α
  | f,_,[] => f
  | f,a,b::l => relink eoc (Function.update (Function.update f a b) b eoc) b l

theorem relink_of_not_mem {x : α} (hx : x ∉ a::l) : relink eoc f a l x = f x := by
  induction l generalizing f a with
  | nil => rfl
  | cons b l ih =>
    have hb : x ∉ b::l := not_mem_of_not_mem_cons hx
    rw [relink, ih hb, update_of_ne (ne_of_not_mem_cons hb),
      update_of_ne (ne_of_not_mem_cons hx)]

theorem relink_head (h : (a::b::l).Nodup) : relink eoc f a (b::l) a = b := by
  have ha : a ∉ b::l := (nodup_cons.mp h).1
  rw [relink, relink_of_not_mem ha, update_of_ne (ne_of_not_mem_cons ha),
    update_self]

theorem Chain.relink {l₁ : List α} (h : Chain (fun x y => f x = y) (fun x => S (f x)) (l₁++[a]))
    (heoc : S eoc) (hd : (l₁++a::l).Nodup) :
    Chain (fun x y => relink eoc f a l x = y) (fun x => S (relink eoc f a l x)) (l₁++a::l) := by
  induction l generalizing f a l₁ with
  | nil => exact h
  | cons b l ih =>
    -- one member is hung behind `a`, and the rest behind it
    rw [append_cons] at hd ⊢
    have hsplit := nodup_append.mp hd
    have hb : ∀ x ∈ l₁++[a], x ≠ b := fun x hx => hsplit.2.2 x hx b mem_cons_self
    have ha : ∀ x ∈ l₁, x ≠ a := fun x hx =>
      (nodup_append.mp hsplit.1).2.2 x hx a mem_cons_self
    apply ih
    · rw [append_assoc]
      refine h.extend (.last ?_) ?_ ?_
      · rw [update_self]
        exact heoc
      · intro x hx y hlink
        rw [update_of_ne (hb x (mem_append_left _ hx)),
          update_of_ne (ha x hx)]
        exact hlink
      · rw [update_of_ne (hb a (mem_append_right _ mem_cons_self)),
          update_self]
    · exact hd

theorem comp_relink (g : α → α) (hg : ∀ x ∈ l, g x = x) (heoc : g eoc = eoc) :
    (fun x => g (relink eoc f a l x)) = relink eoc (fun x => g (f x)) a l := by
  induction l generalizing f a with
  | nil => rfl
  | cons b l ih =>
    rw [relink, relink, ih (forall_mem_cons.mp hg).2]
    congr 1
    funext x
    by_cases hb : x = b
    · subst hb
      rw [update_self, update_self, heoc]
    · rw [update_of_ne hb, update_of_ne hb]
      by_cases ha : x = a
      · subst ha
        rw [update_self, update_self, hg b mem_cons_self]
      · rw [update_of_ne ha, update_of_ne ha]

end

end Zohara.LinkedChain
