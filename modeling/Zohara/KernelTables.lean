import Zohara.TableHeap

/-!
# The kernel's page-table hierarchy

`KernelOk` says that the tables reachable from KERNEL_PML4_PA form a tree of
used frames, that every cell above the last level is empty, a table pointer or
(in a page directory) a block, and that the first two gigabytes are covered. It
holds after `init` and after every map_page and map_page_uc, for any address.

`Installs` is the one way in which the code adds a table: a free frame is
filled and one cell is made to point to it. Both the kernel and the user
hierarchy grow by such steps only.
-/
namespace Zohara.KernelTables
open FrameRefinement PageEntry PageTables TableTree TableHeap List Option

/-- A fresh table `g` with the given cells, linked from cell `i` of table `t`. -/
structure Installs (m m' : Machine) (t i g : ℕ) (link : ℕ → Entry) (new : ℕ → Entry) :
    Prop where
  fresh : g ∉ used m
  valid : Valid m'.frames
  count : m'.frames.actualFrameCount = m.frames.actualFrameCount
  used_eq : used m' = Insert.insert g (used m)
  addr : FrameAddr (g*4096)
  confined : Confined {t,g} m m'
  cells : ∀ f j, j < 512 → f ≠ g →
    cell m' f j = if f = t ∧ j = i then link (g*4096) else cell m f j
  table : ∀ j < 512, cell m' g j = new j

theorem installs_of {m m₁ m₂ : Machine} {t i g : ℕ} {link new : ℕ → Entry}
    (ha : Allocated m g m₁) (hc : Confined {g} m₁ m₂) (hf : m₂.frames = m₁.frames)
    (hnew : ∀ j < 512, cell m₂ g j = new j) (ht : t ∈ used m) (hi : i < 512) :
    Installs m (m₂.setEntry (t*4096) i (link (g*4096))) t i g link new := by
  have htg : t ≠ g := fun h => ha.fresh (h ▸ ht)
  refine ⟨ha.fresh,?_,?_,?_,ha.frameAddr,?_,?_,?_⟩
  · rw [setEntry_frames, hf]
    exact ha.valid
  · rw [setEntry_frames, hf]
    exact ha.count
  · unfold used
    rw [setEntry_frames, hf]
    exact ha.used_eq
  · refine ((ha.confined _).trans (hc.mono ?_)).trans
      ((setEntry_confined m₂ t hi (link (g*4096))).mono ?_)
    · exact fun x hx => Or.inr hx
    · exact fun x hx => Or.inl hx
  · intro f j hj hne
    rw [cell_setEntry m₂ t hi hj, hc.cell (show f ∉ ({g} : Set ℕ) from hne) hj, ha.cell]
  · intro j hj
    rw [cell_setEntry m₂ t hi hj, if_neg fun h => htg h.1.symm, hnew j hj]

variable {m m' : Machine}

theorem nextTable_spec {t i pa : ℕ} (hv : Valid m.frames) (ht : t ∈ used m)
    (hi : i < 512) (h : nextTable m (t*4096) i = some (pa,m')) :
    (present (cell m t i) = true ∧ pa = tableAddr (cell m t i) ∧ m' = m) ∨
    (present (cell m t i) = false ∧
      ∃ g, pa = g*4096 ∧ Installs m m' t i g tableEntry fun _ => 0) := by
  unfold nextTable at h
  split_ifs at h with hp
  · obtain ⟨rfl,rfl⟩ : tableAddr (m.entry (t*4096) i) = pa ∧ m = m' := by simpa using h
    exact .inl ⟨hp,rfl,rfl⟩
  · refine .inr ⟨Bool.eq_false_iff.mpr hp,?_⟩
    obtain ⟨⟨pa',m₁⟩,ha,he⟩ := bind_eq_some_iff.mp h
    obtain ⟨g,rfl,hal⟩ := allocTableOrHalt_some hv ha
    obtain ⟨rfl,rfl⟩ : g*4096 = pa ∧
        (m₁.zeroTable (g*4096)).setEntry (t*4096) i (tableEntry (g*4096)) = m' := by
      simpa using he
    obtain ⟨hc,hf,hcell⟩ := zeroTable_spec m₁ g
    refine ⟨g,rfl,installs_of hal hc hf (fun j hj => ?_) ht hi⟩
    rw [hcell g j hj, if_pos rfl]

variable {link : ℕ → Entry}

theorem splitBlock_spec {t i pa : ℕ} (hv : Valid m.frames)
    (ht : t ∈ used m) (hi : i < 512) (h : splitBlock m (t*4096) i link = some (pa,m')) :
    ∃ g, pa = g*4096 ∧ Installs m m' t i g link fun j =>
      page4k (blockAddr (cell m t i)+j*0x1000) true false true := by
  obtain ⟨⟨pa',m₁⟩,ha,he⟩ := bind_eq_some_iff.mp h
  obtain ⟨g,rfl,hal⟩ := allocTableOrHalt_some hv ha
  obtain ⟨hc,hf,hcell⟩ := fillBlock_spec m₁ g (blockAddr (m.entry (t*4096) i))
  cases he
  refine ⟨g,rfl,installs_of hal hc hf (fun j hj => ?_) ht hi⟩
  rw [hcell g j hj, if_pos rfl]
  rfl

variable {m : Machine}

theorem nextTable_room {n t i : ℕ} (h : Room m (n+1)) (hv : Valid m.frames) :
    ∃ pa m', nextTable m t i = some (pa,m') ∧ Room m' n := by
  unfold nextTable
  split_ifs
  · exact ⟨_,m,rfl,h.weaken (Nat.le_succ n)⟩
  · obtain ⟨f,m₁,ha,-,hr⟩ := h.alloc hv
    rw [ha]
    refine ⟨_,_,bind_some _ _,hr.of_frames ?_⟩
    rw [setEntry_frames, zeroTable_frames]

theorem splitBlock_room {n pd idx : ℕ} (h : Room m (n+1))
    (hv : Valid m.frames) : ∃ pa m', splitBlock m pd idx link = some (pa,m') ∧ Room m' n := by
  obtain ⟨f,m₁,ha,-,hr⟩ := h.alloc hv
  unfold splitBlock
  rw [ha]
  refine ⟨_,_,bind_some _ _,hr.of_frames ?_⟩
  rw [setEntry_frames, foldl_setEntry_frames, zeroTable_frames]

/-! ## The invariant -/

/-- What a cell of a table at depth `n` above the last level may hold. -/
def Slot (n : ℕ) (e : Entry) : Prop :=
  e = 0 ∨ (∃ g, FrameAddr (g*4096) ∧ e = tableEntry (g*4096)) ∨
    (n = 2 ∧ present e = true ∧ large e = true)

/-- The tables reachable from `r` form a tree of used frames. -/
structure TreeOk (m : Machine) (r : ℕ) : Prop where
  valid : Valid m.frames
  separate : Separate child (cell m) r 3 512
  inUse : ∀ p f, Path 3 512 p → node child (cell m) r p = some f → f ∈ used m
  slots : ∀ p f i, Path 2 512 p → node child (cell m) r p = some f → i < 512 →
    Slot p.length (cell m f i)

/-- The tree hangs at KERNEL_PML4_PA and covers the first two gigabytes. -/
structure KernelOk (m : Machine) (r : ℕ) : Prop extends TreeOk m r where
  root : m.kernelPml4 = r*4096
  low : ∀ j < 2, ∃ d, node child (cell m) r [0,j] = some d ∧
    ∀ k < 512, present (cell m d k) = true

theorem path_low {j : ℕ} (hj : j < 512) : Path 3 512 [0,j] :=
  ⟨by simp,by simpa using hj⟩

/-- The invariant depends on the cells above the last level and on the frames in
use. -/
theorem KernelOk.of_agree {r : ℕ} (ok : KernelOk m r)
    (hcell : ∀ p f i, Path 3 512 p → p.length < 3 → i < 512 → node child (cell m) r p = some f →
      cell m' f i = cell m f i)
    (hv : Valid m'.frames)
    (hused : ∀ p f, Path 3 512 p → node child (cell m) r p = some f → f ∈ used m')
    (hroot : m'.kernelPml4 = m.kernelPml4) : KernelOk m' r := by
  have hnode : ∀ p, Path 3 512 p → node child (cell m') r p = node child (cell m) r p :=
    fun p hp => node_eq_of_agree hcell hp
  refine ⟨⟨hv,ok.separate.of_agree hcell,fun p f hp hf => ?_,fun p f i hp hf hi => ?_⟩,
    hroot.trans ok.root,fun j hj => ?_⟩
  · rw [hnode p hp] at hf
    exact hused p f hp hf
  · have hlen := hp.1
    rw [hnode p (hp.weaken (by decide))] at hf
    rw [hcell p f i (hp.weaken (by decide)) (by omega) hi hf]
    exact ok.slots p f i hp hf hi
  · obtain ⟨d,hd,hp⟩ := ok.low j hj
    have hpath : Path 3 512 [0,j] := path_low (by omega)
    refine ⟨d,by rw [hnode _ hpath]; exact hd,fun k hk => ?_⟩
    rw [hcell _ d k hpath (by simp) hk hd]
    exact hp k hk

section
variable {m m' : Machine} {r t i g : ℕ} {p : List ℕ} {new : ℕ → Entry}

theorem TreeOk.ne_fresh (h : TreeOk m r) (hg : g ∉ used m) {q : List ℕ} {f : ℕ}
    (hq : Path 3 512 q) (hf : node child (cell m) r q = some f) : f ≠ g := by
  intro hfg
  exact hg (hfg ▸ h.inUse q f hq hf)

/-- Installing a table in an empty cell or over a block adds exactly one table
to a tree of used frames. -/
theorem Installs.extends (hs : Installs m m' t i g link new)
    (hlink : child (link (g*4096)) = some g)
    (hused : ∀ q f, Path 3 512 q → node child (cell m) r q = some f → f ∈ used m)
    (hp : Path 2 512 p) (ht : node child (cell m) r p = some t) (hi : i < 512)
    (he : child (cell m t i) = none) (hbare : p.length < 2 → ∀ j < 512, child (new j) = none) :
    Extends child (cell m) (cell m') r 3 512 p t i g := by
  have hne : ∀ q f, Path 3 512 q → node child (cell m) r q = some f → f ≠ g :=
    fun q f hq hf hfg => hs.fresh (hfg ▸ hused q f hq hf)
  have hp3 : Path 3 512 p := hp.weaken (by decide)
  have hplen := hp.1
  refine ⟨hp3,by omega,hi,ht,he,?_,?_,?_,?_⟩
  · rw [hs.cells t i hi (hne p t hp3 ht), if_pos ⟨rfl,rfl⟩, hlink]
  · intro q hq hg
    exact hne q g hq hg rfl
  · intro q f j hq _ hj hf hneq
    rw [hs.cells f j hj (hne q f hq hf), if_neg hneq]
  · intro hl j hj
    rw [hs.table j hj]
    exact hbare (by omega) j hj

theorem TreeOk.extends (h : TreeOk m r) (hp : Path 2 512 p)
    (ht : node child (cell m) r p = some t) (hi : i < 512) (he : child (cell m t i) = none)
    (hs : Installs m m' t i g tableEntry new)
    (hbare : p.length < 2 → ∀ j < 512, child (new j) = none) :
    Extends child (cell m) (cell m') r 3 512 p t i g :=
  hs.extends (child_tableEntry hs.addr) h.inUse hp ht hi he hbare

theorem TreeOk.install (h : TreeOk m r) (hs : Installs m m' t i g tableEntry new)
    (hext : Extends child (cell m) (cell m') r 3 512 p t i g)
    (hslot : p.length < 2 → ∀ j < 512, Slot (p.length+1) (new j)) : TreeOk m' r := by
  refine ⟨hs.valid,hext.separate h.separate,?_,?_⟩
  · intro q f hq hf
    rw [hs.used_eq]
    obtain ⟨-,rfl⟩ | ⟨ho,-⟩ := hext.node_cases h.separate hq hf
    · exact Finset.mem_insert_self _ _
    · exact Finset.mem_insert_of_mem (h.inUse q f hq ho)
  · intro q f j hq hf hj
    have hq3 : Path 3 512 q := hq.weaken (by decide)
    obtain ⟨rfl,rfl⟩ | ⟨ho,-⟩ := hext.node_cases h.separate hq3 hf
    · have hlen := hq.1
      rw [length_append, length_singleton] at hlen ⊢
      rw [hs.table j hj]
      exact hslot (by omega) j hj
    · rw [hs.cells f j hj (h.ne_fresh hs.fresh hq3 ho)]
      split_ifs
      · exact .inr (.inl ⟨g,hs.addr,rfl⟩)
      · exact h.slots q f j hq ho hj

theorem KernelOk.install (h : KernelOk m r) (hs : Installs m m' t i g tableEntry new)
    (hext : Extends child (cell m) (cell m') r 3 512 p t i g)
    (hslot : p.length < 2 → ∀ j < 512, Slot (p.length+1) (new j)) : KernelOk m' r := by
  refine ⟨h.toTreeOk.install hs hext hslot,hs.confined.kernelPml4.trans h.root,?_⟩
  intro j hj
  obtain ⟨d,hd,hall⟩ := h.low j hj
  have hpath : Path 3 512 [0,j] := path_low (by omega)
  refine ⟨d,hext.node_old h.separate hpath hd,fun k hk => ?_⟩
  rw [hs.cells d k hk (h.ne_fresh hs.fresh hpath hd)]
  split_ifs
  · exact (tableEntry_spec hs.addr).1
  · exact hall k hk

end

theorem KernelOk.setLeaf {r f i : ℕ} {p : List ℕ} (h : KernelOk m r)
    (hp : Path 3 512 p) (hl : p.length = 3) (hf : node child (cell m) r p = some f)
    (hi : i < 512) (e : Entry) : KernelOk (m.setEntry (f*4096) i e) r ∧
      ∀ q, Path 3 512 q → node child (cell (m.setEntry (f*4096) i e)) r q =
        node child (cell m) r q := by
  have hagree : ∀ q g j, Path 3 512 q → q.length < 3 → j < 512 →
      node child (cell m) r q = some g → cell (m.setEntry (f*4096) i e) g j = cell m g j := by
    intro q g j hq hlt hj hg
    rw [cell_setEntry m f hi hj, if_neg]
    rintro ⟨rfl,-⟩
    have := h.separate q p g hq hp hg hf
    rw [this, hl] at hlt
    omega
  exact ⟨h.of_agree hagree h.valid h.inUse rfl,fun q hq => node_eq_of_agree hagree hq⟩

/-! ## Descending one level -/

/-- The table behind a cell, splitting a block or installing a table as needed. -/
def tableBehind (m : Machine) (table idx : ℕ) : Option (ℕ × Machine) :=
  if present (m.entry table idx) && large (m.entry table idx) then
    splitBlock m table idx tableEntry
  else nextTable m table idx

/-- Table `g` is reached from cell `i` of the table at path `p`: it was there
already, or it has just been installed, empty or with the pages of a block. -/
inductive Descends (m : Machine) (r : ℕ) (p : List ℕ) (t i g : ℕ) : Machine → Prop
  | stay : child (cell m t i) = some g → Descends m r p t i g m
  | install {m' : Machine} {new : ℕ → Entry} : Installs m m' t i g tableEntry new →
      Extends child (cell m) (cell m') r 3 512 p t i g →
      (cell m t i = 0 ∧ ∀ j < 512, new j = 0) ∨
        (p.length = 2 ∧ present (cell m t i) = true ∧ large (cell m t i) = true ∧
          ∀ j < 512, new j = page4k (blockAddr (cell m t i)+j*0x1000) true false true) →
      Descends m r p t i g m'

section
variable {m m' : Machine} {r t i g : ℕ} {p : List ℕ}

section

variable (hd : Descends m r p t i g m') (h : KernelOk m r)
include hd h

theorem Descends.node_new
    (ht : node child (cell m) r p = some t) : node child (cell m') r (p++[i]) = some g := by
  cases hd with
  | stay hc => rw [node_snoc_of ht, hc]
  | install _ he _ => exact he.node_new h.separate

theorem Descends.node_old {q : List ℕ} {f : ℕ}
    (hq : Path 3 512 q) (hf : node child (cell m) r q = some f) :
    node child (cell m') r q = some f := by
  cases hd with
  | stay _ => exact hf
  | install _ he _ => exact he.node_old h.separate hq hf

theorem Descends.node_cases {q : List ℕ} {f : ℕ}
    (hq : Path 3 512 q) (hf : node child (cell m') r q = some f) :
    node child (cell m) r q = some f ∨ q = p++[i] := by
  cases hd with
  | stay _ => exact .inl hf
  | install _ he _ =>
    obtain ⟨hq,-⟩ | ⟨ho,-⟩ := he.node_cases h.separate hq hf
    · exact .inr hq
    · exact .inl ho

end

theorem tableBehind_descends {pa : ℕ} (h : KernelOk m r) (hp : Path 2 512 p)
    (ht : node child (cell m) r p = some t) (hi : i < 512)
    (hb : tableBehind m (t*4096) i = some (pa,m')) :
    ∃ g, pa = g*4096 ∧ KernelOk m' r ∧ Descends m r p t i g m' := by
  have htu : t ∈ used m := h.inUse p t (hp.weaken (by decide)) ht
  have hslot := h.slots p t i hp ht hi
  unfold tableBehind at hb
  split_ifs at hb with hpl
  · obtain ⟨hpres,hlarge⟩ := Bool.and_eq_true_iff.mp hpl
    obtain ⟨g,rfl,hs⟩ := splitBlock_spec h.valid htu hi hb
    have hlen : p.length = 2 := by
      rcases hslot with he | ⟨f,hf,he⟩ | ⟨hl,-,-⟩
      · change present (cell m t i) = true at hpres
        rw [he] at hpres
        cases hpres
      · change large (cell m t i) = true at hlarge
        rw [he, (tableEntry_spec hf).2.2.2.1] at hlarge
        cases hlarge
      · exact hl
    have hext := h.extends hp ht hi (child_large hlarge) hs (by omega)
    exact ⟨g,rfl,h.install hs hext (by omega),.install hs hext (.inr ⟨hlen,hpres,hlarge,fun _ _ => rfl⟩)⟩
  · rcases nextTable_spec h.valid htu hi hb with ⟨hpres,rfl,rfl⟩ | ⟨habs,g,rfl,hs⟩
    · rcases hslot with he | ⟨f,hf,he⟩ | ⟨-,-,hl⟩
      · rw [he] at hpres
        cases hpres
      · refine ⟨f,?_,h,.stay ?_⟩
        · rw [he, (tableEntry_spec hf).2.2.2.2.2]
        · rw [he, child_tableEntry hf]
      · exact (hpl (Bool.and_eq_true_iff.mpr ⟨hpres,hl⟩)).elim
    · have hzero : cell m t i = 0 := by
        rcases hslot with he | ⟨f,hf,he⟩ | ⟨-,hp',-⟩
        · exact he
        · rw [he, (tableEntry_spec hf).1] at habs
          cases habs
        · rw [hp'] at habs
          cases habs
      have hext := h.extends hp ht hi (by rw [hzero]; exact child_zero) hs
        fun _ _ _ => child_zero
      exact ⟨g,rfl,h.install hs hext fun _ _ _ => .inl rfl,.install hs hext (.inl ⟨hzero,fun _ _ => rfl⟩)⟩

end

theorem KernelOk.nextTable_eq {r t i : ℕ} {p : List ℕ} (h : KernelOk m r)
    (hp : Path 1 512 p) (ht : node child (cell m) r p = some t) (hi : i < 512) :
    nextTable m (t*4096) i = tableBehind m (t*4096) i := by
  have hlen := hp.1
  unfold tableBehind
  rw [if_neg]
  intro hpl
  obtain ⟨hpres,hlarge⟩ := Bool.and_eq_true_iff.mp hpl
  change present (cell m t i) = true at hpres
  change large (cell m t i) = true at hlarge
  rcases h.slots p t i (hp.weaken (by decide)) ht hi with he | ⟨f,hf,he⟩ | ⟨hl,-,-⟩
  · rw [he] at hpres
    cases hpres
  · rw [he, (tableEntry_spec hf).2.2.2.1] at hlarge
    cases hlarge
  · omega

theorem path_three {a b c : ℕ} (ha : a < 512) (hb : b < 512) (hc : c < 512) :
    Path 3 512 [a,b,c] := by
  refine ⟨by simp,?_⟩
  intro i hi
  simp only [mem_cons, not_mem_nil, or_false] at hi
  rcases hi with rfl | rfl | rfl <;> assumption

theorem mapWith_eq (leaf : ℕ → Entry) (m : Machine) (virt : ℕ) :
    mapWith leaf m virt = (nextTable m m.kernelPml4 (pml4Idx virt)).bind fun x =>
      (nextTable x.2 x.1 (pdptIdx virt)).bind fun y =>
        (tableBehind y.2 y.1 (pdIdx virt)).bind fun z =>
          some (z.2.setEntry z.1 (ptIdx virt) (leaf virt)) := by
  refine congrArg (Option.bind _) (funext fun x => congrArg (Option.bind _) (funext fun y => ?_))
  unfold tableBehind
  dsimp only
  split_ifs <;> rfl

/-- Three free frames are always enough for one page. -/
theorem mapWith_room {r n virt : ℕ} {leaf : ℕ → Entry} (h : KernelOk m r)
    (hr : Room m (n+3)) : ∃ m', mapWith leaf m virt = some m' ∧ Room m' n := by
  have hi₁ := pml4Idx_lt virt
  have hp₀ : Path 1 512 [] := ⟨by simp,by simp⟩
  have hp₁ : Path 1 512 [pml4Idx virt] := ⟨by simp,by simpa using hi₁⟩
  obtain ⟨pa,m₁,h₁,hr₁⟩ := nextTable_room (t := r*4096) (i := pml4Idx virt) hr h.valid
  have hb₁ := h₁
  rw [h.nextTable_eq hp₀ rfl hi₁] at hb₁
  obtain ⟨a,rfl,ok₁,d₁⟩ := tableBehind_descends h (hp₀.weaken (by decide)) rfl hi₁ hb₁
  have n₁ : node child (cell m₁) r [pml4Idx virt] = some a := d₁.node_new h rfl
  obtain ⟨pb,m₂,h₂,hr₂⟩ := nextTable_room (t := a*4096) (i := pdptIdx virt) hr₁ ok₁.valid
  have hb₂ := h₂
  rw [ok₁.nextTable_eq hp₁ n₁ (pdptIdx_lt virt)] at hb₂
  obtain ⟨b,rfl,ok₂,-⟩ := tableBehind_descends ok₁ (hp₁.weaken (by decide)) n₁ (pdptIdx_lt virt) hb₂
  have h₃ : ∃ pc m₃, tableBehind m₂ (b*4096) (pdIdx virt) = some (pc,m₃) ∧ Room m₃ n := by
    unfold tableBehind
    split_ifs
    · exact splitBlock_room hr₂ ok₂.valid
    · exact nextTable_room hr₂ ok₂.valid
  obtain ⟨pc,m₃,h₃,hr₃⟩ := h₃
  refine ⟨m₃.setEntry pc (ptIdx virt) (leaf virt),?_,hr₃.of_frames (setEntry_frames _ _ _ _)⟩
  rw [mapWith_eq, h.root, h₁, bind_some, h₂, bind_some, h₃, bind_some]

/-- Everything a completed map_page or map_page_uc does: three descents and the
write of one leaf. -/
theorem mapWith_cases {r virt : ℕ} {leaf : ℕ → Entry} (h : KernelOk m r)
    (hm : mapWith leaf m virt = some m') :
    ∃ m₁ m₂ m₃ a b c, KernelOk m₁ r ∧ KernelOk m₂ r ∧ KernelOk m₃ r ∧
      Descends m r [] r (pml4Idx virt) a m₁ ∧
      Descends m₁ r [pml4Idx virt] a (pdptIdx virt) b m₂ ∧
      Descends m₂ r [pml4Idx virt,pdptIdx virt] b (pdIdx virt) c m₃ ∧
      node child (cell m₁) r [pml4Idx virt] = some a ∧
      node child (cell m₂) r [pml4Idx virt,pdptIdx virt] = some b ∧
      node child (cell m₃) r [pml4Idx virt,pdptIdx virt,pdIdx virt] = some c ∧
      m' = m₃.setEntry (c*4096) (ptIdx virt) (leaf virt) := by
  have hi₁ := pml4Idx_lt virt
  have hi₂ := pdptIdx_lt virt
  have hi₃ := pdIdx_lt virt
  have hpath := path_three hi₁ hi₂ hi₃
  have hp₀ : Path 1 512 [] := ⟨by simp,by simp⟩
  have hp₁ : Path 1 512 [pml4Idx virt] := ⟨by simp,by simpa using hi₁⟩
  have hp₂ : Path 2 512 [pml4Idx virt,pdptIdx virt] :=
    ⟨by simp,fun i hi => hpath.2 i (by simp only [mem_cons] at hi ⊢; tauto)⟩
  rw [mapWith_eq, h.root, h.nextTable_eq hp₀ rfl hi₁] at hm
  obtain ⟨⟨pa,m₁⟩,h₁,hm⟩ := bind_eq_some_iff.mp hm
  obtain ⟨a,rfl,ok₁,d₁⟩ := tableBehind_descends h (hp₀.weaken (by decide)) rfl hi₁ h₁
  have n₁ : node child (cell m₁) r [pml4Idx virt] = some a := d₁.node_new h rfl
  dsimp only at hm
  rw [ok₁.nextTable_eq hp₁ n₁ hi₂] at hm
  obtain ⟨⟨pb,m₂⟩,h₂,hm⟩ := bind_eq_some_iff.mp hm
  obtain ⟨b,rfl,ok₂,d₂⟩ := tableBehind_descends ok₁ (hp₁.weaken (by decide)) n₁ hi₂ h₂
  have n₂ : node child (cell m₂) r [pml4Idx virt,pdptIdx virt] = some b := d₂.node_new ok₁ n₁
  obtain ⟨⟨pc,m₃⟩,h₃,hm⟩ := bind_eq_some_iff.mp hm
  obtain ⟨c,rfl,ok₃,d₃⟩ := tableBehind_descends ok₂ hp₂ n₂ hi₃ h₃
  have n₃ : node child (cell m₃) r [pml4Idx virt,pdptIdx virt,pdIdx virt] = some c :=
    d₃.node_new ok₂ n₂
  exact ⟨m₁,m₂,m₃,a,b,c,ok₁,ok₂,ok₃,d₁,d₂,d₃,n₁,n₂,n₃,(some.inj hm).symm⟩

end Zohara.KernelTables
