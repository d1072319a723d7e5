import Zohara.FatListing

/-!
# Long names

A long name is stored 13 characters a slot, the last ones first, in the slots in front of the
file's own. readdir takes the first five characters of each slot, keeps the slots in the order in
which they are stored, and forgets what it has collected at the end of a cluster. So a name is
reported as it is only when it has at most five characters and its slot lies in the cluster of the
file, or when no part of it is seen and the short name happens to be the same.

The name may be stored anywhere in a directory, across clusters too, and other long-name slots may
be left in front of its slots.
-/
namespace Zohara.Fat32
open ByteMemory FallibleState IdeDisk ElfImage List Function

/-- A long name of ASCII characters. -/
structure LongName (name : List UInt8) : Prop where
  lower : 1 ≤ name.length
  upper : name.length ≤ 255
  ascii : ∀ b ∈ name, b ≠ 0 ∧ b < 0x80

/-- The UTF-16 character at a place. The name ends with a zero, and the rest is filled up. -/
def charAt (name : List UInt8) (i : ℕ) : ℕ :=
  if i < name.length then (name.getD i 0).toNat else if i = name.length then 0 else 0xFFFF

/-- Where a character is in a Fat32LongEntry: in name1, name2 or name3. -/
def charOffset (m : ℕ) : ℕ :=
  if m < 5 then 1+2*m else if m < 11 then 14+2*(m-5) else 28+2*(m-11)

/-- The number of slots of a name. -/
def longSlots (name : List UInt8) : ℕ := (name.length+12)/13

/-- The slot of the characters from `13*j` on. -/
structure LongSlot (name : List UInt8) (j : ℕ) (e : List UInt8) : Prop where
  order : (e.getD 0 0).toNat = if j+1 = longSlots name then 0x40+(j+1) else j+1
  attributes : e.getD 11 0 = 0x0F
  chars : ∀ m < 13, field e (charOffset m) 2 = charAt name (13*j+m)

/-- The characters that readdir takes from the last `n` slots of a name. -/
def heardFrom (name : List UInt8) (n : ℕ) : List UInt8 :=
  (List.range n).reverse.flatMap fun j => (name.drop (13*j)).take 5

section
variable {name e : List UInt8} {es : List (List UInt8)} {i j n : ℕ}

theorem charAt_drop (h : n ≤ name.length) (i : ℕ) : charAt name (n+i) = charAt (name.drop n) i := by
  have hget : (name.drop n).getD i 0 = name.getD (n+i) 0 := by
    rw [getD_eq_getElem?_getD, getElem?_drop, ← getD_eq_getElem?_getD]
  have hlt : i < name.length-n ↔ n+i < name.length := by omega
  have hend : i = name.length-n ↔ n+i = name.length := by omega
  unfold charAt
  simp only [length_drop, hget, hlt, hend]

theorem takeWhile_charAt (hascii : ∀ b ∈ name, b ≠ 0 ∧ b < 0x80) (n : ℕ) :
    ((List.range n).map (charAt name)).takeWhile (fun c => c ≠ 0xFFFF ∧ c ≠ 0) =
      (name.take n).map UInt8.toNat := by
  induction n generalizing name with
  | zero => rw [range_zero, map_nil, takeWhile_nil, take_zero, map_nil]
  | succ n ih =>
    rw [range_succ_eq_map, map_cons, List.map_map]
    cases name with
    | nil =>
      rw [takeWhile_cons_of_neg (by decide), take_nil, map_nil]
    | cons b name =>
      have hb := hascii b mem_cons_self
      have hne : b.toNat ≠ 0 := fun h => hb.1 (UInt8.toNat_inj.mp h)
      have hlt : b.toNat < 0x80 := UInt8.lt_iff_toNat_lt.mp hb.2
      have hshift : charAt (b::name) ∘ Nat.succ = charAt name := by
        funext i
        have hdrop : charAt (b::name) (1+i) = charAt ((b::name).drop 1) i :=
          charAt_drop (by rw [length_cons]; omega) i
        rw [comp_apply, Nat.succ_eq_add_one, Nat.add_comm i 1, hdrop]
        rfl
      have hfirst : charAt (b::name) 0 = b.toNat := if_pos (by rw [length_cons]; omega)
      rw [hshift, hfirst, takeWhile_cons_of_pos (by simp only [decide_eq_true_eq]; omega),
        ih (forall_mem_cons.mp hascii).2, take_succ_cons, map_cons]

theorem filterMap_ascii (hascii : ∀ b ∈ name, b ≠ 0 ∧ b < 0x80) :
    (name.map UInt8.toNat).filterMap (fun c => if c < 0x80 then some (UInt8.ofNat c) else none) =
      name := by
  induction name with
  | nil => rfl
  | cons b name ih =>
    have hlt : b.toNat < 0x80 := UInt8.lt_iff_toNat_lt.mp (hascii b mem_cons_self).2
    rw [map_cons, filterMap_cons, if_pos hlt]
    dsimp only
    rw [UInt8.ofNat_toNat, ih (forall_mem_cons.mp hascii).2]

theorem LongName.slots_pos (h : LongName name) : 0 < longSlots name := by
  have hlen := h.lower
  unfold longSlots
  omega

theorem LongSlot.longChars_eq (h : LongSlot name j e) (hname : LongName name)
    (hj : j < longSlots name) : longChars e = (name.drop (13*j)).take 5 := by
  have hstart : 13*j ≤ name.length := by
    unfold longSlots at hj
    omega
  have hascii : ∀ b ∈ name.drop (13*j), b ≠ 0 ∧ b < 0x80 := fun b hb =>
    hname.ascii b (mem_of_mem_drop hb)
  have hchars : (List.range 5).map (fun m => field e (1+m*2) 2) =
      (List.range 5).map (charAt (name.drop (13*j))) := by
    refine map_congr_left fun m hm => ?_
    have hm := mem_range.mp hm
    have hchar := h.chars m (by omega)
    rw [charOffset, if_pos hm, charAt_drop hstart] at hchar
    rw [← hchar, Nat.mul_comm m 2]
  unfold longChars
  rw [hchars, takeWhile_charAt hascii,
    filterMap_ascii fun b hb => hascii b (mem_of_mem_take hb)]

theorem LongSlot.first (h : LongSlot name j e) (hname : LongName name) (hj : j < longSlots name) :
    e.getD 0 0 ≠ 0 ∧ IsLong e := by
  have hlen := hname.upper
  have horder := h.order
  have hsmall : longSlots name ≤ 20 := by
    unfold longSlots
    omega
  have hbounds : 0 < (e.getD 0 0).toNat ∧ (e.getD 0 0).toNat < 0xE5 := by
    split at horder
    · omega
    · omega
  refine ⟨fun h0 => ?_,fun h5 => ?_,h.attributes⟩
  · rw [h0] at hbounds
    exact absurd hbounds.1 (by decide)
  · rw [h5] at hbounds
    exact absurd hbounds.2 (by decide)

theorem heardFrom_succ (name : List UInt8) (n : ℕ) :
    heardFrom name (n+1) = (name.drop (13*n)).take 5++heardFrom name n := by
  unfold heardFrom
  rw [range_succ, reverse_append, reverse_singleton, singleton_append,
    flatMap_cons]

theorem length_heardFrom (name : List UInt8) (n : ℕ) : (heardFrom name n).length ≤ 5*n := by
  induction n with
  | zero => exact le_rfl
  | succ n ih =>
    rw [heardFrom_succ, length_append, length_take]
    omega

theorem LongName.heard_ne_nil (h : LongName name) (n : ℕ) : heardFrom name (n+1) ≠ [] := by
  have hlen := h.lower
  induction n with
  | zero =>
    have hone : (heardFrom name (0+1)).length = min 5 name.length := by
      rw [heardFrom_succ, length_append, length_take]
      rfl
    exact ne_nil_of_length_pos (by omega)
  | succ n ih =>
    rw [heardFrom_succ]
    exact append_ne_nil_of_right_ne_nil _ ih

/-- All that is taken from the slots of a name is the name when it has at most five characters. -/
theorem LongName.heard_eq_iff (h : LongName name) :
    heardFrom name (longSlots name) = name ↔ name.length ≤ 5 := by
  have hlen := h.lower
  by_cases hone : longSlots name = 1
  · have htake : heardFrom name 1 = name.take 5 := by
      rw [heardFrom_succ]
      exact append_nil _
    rw [hone, htake]
    exact take_eq_self_iff name
  · have hbound := length_heardFrom name (longSlots name)
    refine iff_of_false (fun heq => ?_) ?_
    · rw [heq] at hbound
      unfold longSlots at hbound hone
      omega
    · unfold longSlots at hone
      omega

theorem frontText_set (hname : LongName name) (hi : i ≤ es.length) (hn : n ≤ i)
    (hset : ∀ j < n, j < longSlots name ∧ LongSlot name j (es.getD (i-1-j) [])) :
    frontText (es.take i) = frontText (es.take (i-n))++heardFrom name n := by
  induction n with
  | zero => rw [Nat.sub_zero, heardFrom, range_zero, reverse_nil, flatMap_nil,
      append_nil]
  | succ n ih =>
    obtain ⟨hj,hslot⟩ := hset n (Nat.lt_succ_self n)
    have hlast : es.take (i-n) = es.take (i-(n+1))++[es.getD (i-1-n) []] := by
      have hpos : i-n = i-(n+1)+1 := by omega
      rw [hpos, take_succ_eq_append_getElem (by omega),
        getD_eq_getElem _ _ (by omega : i-1-n < es.length)]
      congr 2
      congr 1
      omega
    rw [ih (by omega) fun j hj => hset j (by omega), hlast,
      frontText_long (hslot.first hname hj).2, hslot.longChars_eq hname hj, heardFrom_succ,
      append_assoc]

end

/-! ## A name in a directory -/

namespace FatVolume
variable (v : FatVolume)

/-- The file in slot `k` of the directory has the long name. -/
structure LongNamed (A : View) (D : List ℕ) (name : List UInt8) (k : ℕ) : Prop where
  room : longSlots name ≤ k
  inside : k < (v.dirSlots A D).length
  set : ∀ j < longSlots name, LongSlot name j (v.dirSlot A D (k-1-j))
  entry : IsLive (v.dirSlot A D k)

/-- readdir returns, and the file in slot `k` is in its list under the name. -/
def ReportedAs (w : Drives) (D : List ℕ) (name : List UInt8) (k : ℕ) : Prop :=
  answer (v.fs.readdir v.disk (D.headD 0)) w =
      .ok ((v.reports (v.view w) (readClusters (v.view w) D)).map Prod.snd) ∧
    (k,entryOf name (v.dirSlot (v.view w) D k)) ∈
      v.reports (v.view w) (readClusters (v.view w) D)

/-- The characters of other long-name slots directly in front of those of the name. -/
def strayText (A : View) (D : List ℕ) (name : List UInt8) (k : ℕ) : List UInt8 :=
  frontText ((slots (A.data (D.getD (k/v.perCluster) 0)) v.perCluster).take
    (k%v.perCluster-longSlots name))

/-- The whole name is in the cluster of the file and has at most five characters, or other slots
add what is missing; or no part of it is there and the short name is the same. -/
def Legible (A : View) (D : List ℕ) (name : List UInt8) (k : ℕ) : Prop :=
  longSlots name ≤ k%v.perCluster ∧ (v.strayText A D name k = [] ∧ name.length ≤ 5 ∨
      v.strayText A D name k ≠ [] ∧
        v.strayText A D name k++heardFrom name (longSlots name) = name) ∨
    k%v.perCluster = 0 ∧ shortName (v.dirSlot A D k) = name

variable {v : FatVolume} {w : Drives} {A : View} {D : List ℕ} {name : List UInt8} {k : ℕ}

theorem entryOf_inj {a b e : List UInt8} : entryOf a e = entryOf b e ↔ a = b :=
  ⟨fun h => congrArg DirEntry32.name h,fun h => h ▸ rfl⟩

theorem legible_iff {es : List (List UInt8)} {i : ℕ} {short : List UInt8} (hname : LongName name)
    (hi : i ≤ es.length)
    (hset : ∀ j < longSlots name, j < i → LongSlot name j (es.getD (i-1-j) [])) :
    (if frontText (es.take i) ≠ [] then frontText (es.take i) else short) = name ↔
      longSlots name ≤ i ∧ (frontText (es.take (i-longSlots name)) = [] ∧ name.length ≤ 5 ∨
          frontText (es.take (i-longSlots name)) ≠ [] ∧
            frontText (es.take (i-longSlots name))++heardFrom name (longSlots name) = name) ∨
        i = 0 ∧ short = name := by
  have hpos := hname.slots_pos
  by_cases hroom : longSlots name ≤ i
  · -- all slots of the name are in the cluster
    have hfront := frontText_set hname hi hroom fun j hj => ⟨hj,hset j hj (by omega)⟩
    have hheard : heardFrom name (longSlots name) ≠ [] := by
      obtain ⟨n,hn⟩ := Nat.exists_eq_succ_of_ne_zero hpos.ne'
      rw [hn]
      exact hname.heard_ne_nil n
    rw [hfront, if_pos (append_ne_nil_of_right_ne_nil _ hheard)]
    have hzero : ¬i = 0 := by omega
    simp only [hroom, true_and, hzero, false_and, or_false]
    by_cases hstray : frontText (es.take (i-longSlots name)) = []
    · simp only [hstray, nil_append, true_and, ne_eq, not_true_eq_false, false_and, or_false]
      exact hname.heard_eq_iff
    · simp only [hstray, false_and, ne_eq, not_false_eq_true, true_and, false_or]
  · have hfront := frontText_set hname hi le_rfl fun j hj =>
      ⟨hj.trans_le (Nat.le_of_not_le hroom),hset j (by omega) hj⟩
    rw [Nat.sub_self, take_zero, frontText_nil, nil_append] at hfront
    rw [hfront]
    simp only [hroom, false_and, false_or]
    cases i with
    | zero => exact ⟨fun h => ⟨rfl,h⟩,fun h => h.2⟩
    | succ i =>
      -- the last slots of the name are too short
      rw [if_pos (hname.heard_ne_nil i)]
      refine iff_of_false (fun heq => ?_) fun h => absurd h.1 (Nat.succ_ne_zero i)
      have hbound := length_heardFrom name (i+1)
      rw [heq] at hbound
      unfold longSlots at hroom
      omega

/-- readdir reports a file under its long name exactly when it reaches the file and the name is
legible. -/
theorem long_name_reported_iff (hs : (v.view w).Sound) (hD : v.FileChain (v.view w) D)
    (hname : LongName name) (h : v.LongNamed (v.view w) D name k) :
    v.ReportedAs w D name k ↔ v.Reached (v.view w) D k ∧ v.Legible (v.view w) D name k := by
  have hk : k < D.length*v.perCluster := by
    have hinside := h.inside
    rwa [length_dirSlots] at hinside
  obtain ⟨hi,hsplit⟩ := v.number_split k
  have hset : ∀ j < longSlots name, j < k%v.perCluster → LongSlot name j
      ((slots ((v.view w).data (D.getD (k/v.perCluster) 0)) v.perCluster).getD
        (k%v.perCluster-1-j) []) := by
    intro j hj hji
    rw [getD_cluster hk (by omega),
      show k/v.perCluster*v.perCluster+(k%v.perCluster-1-j) = k-1-j by omega]
    exact h.set j hj
  have hlegible : v.reportedName (v.view w) D k = name ↔ v.Legible (v.view w) D name k :=
    legible_iff hname (by rw [length_slots]; exact hi.le) hset
  unfold ReportedAs
  rw [and_iff_right (readdir_answer hs hD), mem_readdir_reports hk, entryOf_inj, eq_comm, hlegible,
    and_iff_right h.entry]

/-! ## Two names -/

/-- The bytes of the characters from `13*j+a` on. -/
def charBytes (name : List UInt8) (j a n : ℕ) : List UInt8 :=
  (List.range n).flatMap fun m => toLe 2 (charAt name (13*j+(a+m)))

/-- The bytes of the last slot of a name. -/
def longEntry (name : List UInt8) (j : ℕ) : List UInt8 :=
  UInt8.ofNat (0x40+(j+1))::charBytes name j 0 5++[0x0F,0,0]++charBytes name j 5 6++[0,0]++
    charBytes name j 11 2

/-- A directory of one file with a long name of one slot. -/
def oneLongName (name : List UInt8) : Drives :=
  image [(520,toLe 4 eoc),(2048,longEntry name 0++newEntry (to83 name) false 3)]

theorem oneLongName_chain (h : (small.view (oneLongName name)).fat 2 = eoc) :
    small.FileChain (small.view (oneLongName name)) [2] := fileChain_single (by decide) h

/-- The name "ab" is reported. -/
theorem short_long_name_reported : small.ReportedAs (oneLongName [0x61,0x62]) [2] [0x61,0x62] 1 := by
  have hname : LongName [0x61,0x62] := ⟨by decide,by decide,by decide +kernel⟩
  have hnamed : small.LongNamed (small.view (oneLongName [0x61,0x62])) [2] [0x61,0x62] 1 := by
    refine ⟨by decide,by decide +kernel,fun j hj => ?_,by decide +kernel⟩
    have hj0 : j = 0 := Nat.lt_one_iff.mp hj
    subst hj0
    exact ⟨by decide +kernel,by decide +kernel,by decide +kernel⟩
  refine (long_name_reported_iff (fun _ => rfl) (oneLongName_chain (by decide +kernel)) hname
    hnamed).mpr ⟨⟨by decide +kernel,?_,?_,by decide +kernel⟩,?_⟩
  · have hfirst : 1/small.perCluster = 0 := by decide +kernel
    rw [hfirst]
    exact nofun
  · decide +kernel
  · exact .inl ⟨by decide +kernel,.inl ⟨by decide +kernel,by decide⟩⟩

/-- The name "abcdef" is reported as "abcde". -/
theorem long_name_cut :
    LongName [0x61,0x62,0x63,0x64,0x65,0x66] ∧
      small.LongNamed (small.view (oneLongName [0x61,0x62,0x63,0x64,0x65,0x66])) [2]
        [0x61,0x62,0x63,0x64,0x65,0x66] 1 ∧
      answer (small.fs.readdir small.disk 2) (oneLongName [0x61,0x62,0x63,0x64,0x65,0x66]) =
        .ok [⟨[0x61,0x62,0x63,0x64,0x65],3,0,false⟩] ∧
      ¬small.ReportedAs (oneLongName [0x61,0x62,0x63,0x64,0x65,0x66]) [2]
        [0x61,0x62,0x63,0x64,0x65,0x66] 1 := by
  have hreports : small.reports (small.view (oneLongName [0x61,0x62,0x63,0x64,0x65,0x66]))
      (readClusters (small.view (oneLongName [0x61,0x62,0x63,0x64,0x65,0x66])) [2]) =
        [(1,⟨[0x61,0x62,0x63,0x64,0x65],3,0,false⟩)] := by
    decide +kernel
  refine ⟨⟨by decide,by decide,by decide +kernel⟩,⟨by decide,by decide +kernel,fun j hj => ?_,
    by decide +kernel⟩,?_,?_⟩
  · have hj0 : j = 0 := Nat.lt_one_iff.mp hj
    subst hj0
    exact ⟨by decide +kernel,by decide +kernel,by decide +kernel⟩
  · have hchain : small.FileChain (small.view (oneLongName [0x61,0x62,0x63,0x64,0x65,0x66])) [2] :=
      oneLongName_chain (by decide +kernel)
    have hanswer := readdir_answer (fun _ => rfl) hchain
    rw [hreports] at hanswer
    exact hanswer
  · rintro ⟨_,hmem⟩
    rw [hreports, mem_singleton] at hmem
    exact absurd (congrArg (fun p => p.2.name.length) hmem) (by decide)

end FatVolume

end Zohara.Fat32
