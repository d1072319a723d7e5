import Mathlib.Data.List.Find
import Zohara.ZohfsRuns

/-!
# The root directory of a ZohFS volume

The directory is an array of slots with a count. A creation fills the slot behind the visible
ones, a deletion empties its slot and lowers the count by one; so a deletion hides the last
visible entry, whichever entry it was called for. When that entry is the one to be deleted,
and names fit into a slot, lookups of other names are left alone and the listing is what was
created and not deleted.
-/
namespace Zohara.Zohfs
open FallibleState IdeDisk Runs List Option Function

/-! ## Names -/

/-- The stored bytes up to the first zero. -/
def DirEntry.raw (e : DirEntry) : List UInt8 := ((List.range 56).map e.name).takeWhile (· ≠ 0)

/-- A text that fits into a slot. -/
structure Nameable (name : List UInt8) : Prop where
  short : name.length ≤ 55
  nonzero : ∀ b ∈ name, b ≠ 0
  text : (ByteArray.mk name.toArray).validateUTF8 = true

theorem putName_raw {old : ℕ → UInt8} {name : List UInt8} {i kind : ℕ}
    (hshort : name.length ≤ 55) (hnonzero : ∀ b ∈ name, b ≠ 0) :
    DirEntry.raw ⟨i,putName old name,kind⟩ = name := by
  obtain ⟨r,hr⟩ := Nat.exists_eq_add_of_le hshort
  have hlen : min name.length 55 = name.length := min_eq_left hshort
  have hname : (List.range name.length).map (putName old name) = name := by
    apply ext_getElem (by simp)
    intro j hj _
    rw [length_map, length_range] at hj
    rw [getElem_map, getElem_range, putName, hlen, if_pos hj]
    exact getD_eq_getElem _ _ hj
  have hzero : putName old name name.length = 0 := by
    rw [putName, hlen, if_neg (lt_irrefl _), if_pos rfl]
  unfold DirEntry.raw
  rw [show 56 = name.length+(r+1) by omega, range_add, map_append, hname,
    takeWhile_append_of_pos fun b hb => by simpa using hnonzero b hb, range_succ_eq_map]
  simp [hzero]

theorem Nameable.text_eq {e : DirEntry} (h : Nameable e.raw) : e.text = e.raw := by
  unfold DirEntry.text
  exact if_pos h.text

theorem Nameable.line_eq {e : DirEntry} (h : Nameable e.raw) (hi : e.inode ≠ 0) :
    e.line = some (e.raw,e.inode,decide (e.entryType = 1)) := by
  have hname : (if (ByteArray.mk e.raw.toArray).validateUTF8 then e.raw else [0x3F]) = e.raw :=
    if_pos h.text
  unfold DirEntry.line
  rw [if_neg hi]
  change some (_,_) = _
  exact congrArg (fun name => some (name,e.inode,decide (e.entryType = 1))) hname

/-! ## One slot more -/

/-- The visible entries of a state with one behind them. -/
structure Appends (s t : State) : Prop where
  count : t.rootDirCount = s.rootDirCount+1
  same : ∀ k < s.rootDirCount, t.rootDir k = s.rootDir k

section
variable {v : Volume} {s s' t : State} {name m : List UInt8} {isDir : Bool}

theorem Created.appends {i mode : ℕ} (h : Created v s s' i mode isDir name) :
    Appends s s' ∧ s'.rootDir s.rootDirCount =
      ⟨i,putName (s.rootDir s.rootDirCount).name name,if isDir then 1 else 0⟩ := by
  obtain ⟨c,rfl,-⟩ := h.flushed
  exact ⟨⟨rfl,fun k hk => update_of_ne hk.ne _ _⟩,update_self _ _ _⟩

theorem Deleted.appends {idx : ℕ} (h : Deleted v s s' idx name) (hlast : idx+1 = s.rootDirCount) :
    Appends s' s := by
  obtain ⟨bitmap,free,c,-,rfl,-⟩ := h.flushed
  have hcount : ((s.removed idx bitmap free).withCache c).rootDirCount = s.rootDirCount-1 := rfl
  refine ⟨by omega,fun k hk => ?_⟩
  exact (update_of_ne (by omega) _ _).symm

theorem Appends.findInRoot_eq (h : Appends s t) (hlast : (t.rootDir s.rootDirCount).text ≠ m) :
    findInRoot t m = findInRoot s m := by
  unfold findInRoot
  rw [h.count, range_succ, find?_append]
  have hnone : [s.rootDirCount].find? (fun i => (t.rootDir i).inode ≠ 0 ∧ (t.rootDir i).text = m) =
      none := by
    simp [hlast]
  have hsame : (List.range s.rootDirCount).find?
      (fun i => (t.rootDir i).inode ≠ 0 ∧ (t.rootDir i).text = m) =
      (List.range s.rootDirCount).find?
        (fun i => (s.rootDir i).inode ≠ 0 ∧ (s.rootDir i).text = m) := by
    refine find?_congr fun i hi => ?_
    rw [h.same i (mem_range.mp hi)]
  rw [hnone, hsame, or_none]

theorem Appends.findFile_eq (h : Appends s t) (hlast : (t.rootDir s.rootDirCount).text ≠ m) :
    findFile t m = findFile s m := by
  unfold findFile
  rw [h.findInRoot_eq hlast]
  cases hf : findInRoot s m with
  | none => rfl
  | some k =>
    rw [map_some, map_some, h.same k (findInRoot_spec hf).1]

theorem Created.findFile_eq {i mode : ℕ} (h : Created v s s' i mode isDir name)
    (hname : Nameable name) (hne : name ≠ m) : findFile s' m = findFile s m := by
  obtain ⟨happ,hentry⟩ := h.appends
  refine happ.findFile_eq ?_
  have hraw : (s'.rootDir s.rootDirCount).raw = name := by
    rw [hentry]
    exact putName_raw hname.short hname.nonzero
  rw [Nameable.text_eq (hraw ▸ hname), hraw]
  exact hne

theorem Deleted.findFile_eq {idx : ℕ} (h : Deleted v s s' idx name)
    (hlast : idx+1 = s.rootDirCount) (hne : name ≠ m) : findFile s' m = findFile s m := by
  have happ := h.appends hlast
  refine (happ.findFile_eq ?_).symm
  have hidx : s'.rootDirCount = idx := by
    have hcount := happ.count
    omega
  rw [hidx, (findInRoot_spec h.found).2.2]
  exact hne

end

/-! ## The listing -/

/-- The names that were created and not deleted, oldest first. -/
def listed : List (Op × Bool) → List (List UInt8)
  | [] => []
  | (.createFile name,true)::h => listed h++[name]
  | (.createDir name,true)::h => listed h++[name]
  | (.delete name,true)::h => (listed h).filter (· ≠ name)
  | _::h => listed h

/-- What the directory can do: create a name that fits, delete the last visible entry. -/
def Tidy (s : State) : Op → Prop
  | .createFile name => Nameable name
  | .createDir name => Nameable name
  | .delete name => ∀ idx, findInRoot s name = some idx → idx+1 = s.rootDirCount
  | _ => True

/-- All visible slots are in use, with different names. -/
structure Names (s : State) (names : List (List UInt8)) : Prop where
  entries : ∀ k < s.rootDirCount, (s.rootDir k).inode ≠ 0 ∧ Nameable (s.rootDir k).raw
  raws : (List.range s.rootDirCount).map (fun k => (s.rootDir k).raw) = names
  distinct : names.Nodup

section
variable {v : Volume} {s s' : State} {names : List (List UInt8)} {name : List UInt8}

theorem Names.readdir (h : Names s names) : (readdirRoot s).map (·.1) = names := by
  rw [← h.raws]
  unfold readdirRoot
  have hline : ∀ k ∈ List.range s.rootDirCount, (s.rootDir k).line =
      some ((s.rootDir k).raw,(s.rootDir k).inode,decide ((s.rootDir k).entryType = 1)) := by
    intro k hk
    obtain ⟨hi,hn⟩ := h.entries k (mem_range.mp hk)
    exact hn.line_eq hi
  rw [filterMap_congr hline, filterMap_eq_map', List.map_map]
  rfl

theorem Names.congr (h : Names s names) (hcount : s'.rootDirCount = s.rootDirCount)
    (hdir : s'.rootDir = s.rootDir) : Names s' names := by
  refine ⟨?_,?_,h.distinct⟩
  · rw [hcount, hdir]
    exact h.entries
  · rw [hcount, hdir]
    exact h.raws

theorem Appends.raws (h : Appends s s') :
    (List.range s'.rootDirCount).map (fun k => (s'.rootDir k).raw) =
      (List.range s.rootDirCount).map (fun k => (s.rootDir k).raw)++
        [(s'.rootDir s.rootDirCount).raw] := by
  rw [h.count, range_succ, map_append, map_singleton]
  congr 1
  refine map_congr_left fun k hk => ?_
  rw [h.same k (mem_range.mp hk)]

theorem Names.created (h : Names s names) {i mode : ℕ}
    (hc : Created v s s' i mode isDir name) (hname : Nameable name) : Names s' (names++[name]) := by
  obtain ⟨happ,hentry⟩ := hc.appends
  have hraw : (s'.rootDir s.rootDirCount).raw = name := by
    rw [hentry]
    exact putName_raw hname.short hname.nonzero
  refine ⟨fun k hk => ?_,?_,?_⟩
  · rw [happ.count] at hk
    by_cases hlast : k = s.rootDirCount
    · rw [hlast, hraw, hentry]
      exact ⟨Nat.ne_of_gt hc.inode.1,hname⟩
    · rw [happ.same k (by omega)]
      exact h.entries k (by omega)
  · rw [happ.raws, h.raws, hraw]
  · refine nodup_append'.mpr ⟨h.distinct,nodup_singleton _,?_⟩
    rw [disjoint_singleton]
    intro hmem
    rw [← h.raws, List.mem_map] at hmem
    obtain ⟨k,hk,hkn⟩ := hmem
    obtain ⟨hi,hn⟩ := h.entries k (mem_range.mp hk)
    have hfind := find?_eq_none.mp hc.absent k hk
    exact hfind (decide_eq_true ⟨hi,hn.text_eq.trans hkn⟩)

theorem Names.deleted (h : Names s names) {idx : ℕ} (hd : Deleted v s s' idx name)
    (hlast : idx+1 = s.rootDirCount) : Names s' (names.filter (· ≠ name)) := by
  have happ := hd.appends hlast
  have hidx : s'.rootDirCount = idx := by
    have hcount := happ.count
    omega
  obtain ⟨hlt,-,htext⟩ := findInRoot_spec hd.found
  have hraw : (s.rootDir s'.rootDirCount).raw = name := by
    rw [hidx, ← htext, (h.entries idx hlt).2.text_eq]
  have hsplit : names = (List.range s'.rootDirCount).map (fun k => (s'.rootDir k).raw)++[name] := by
    rw [← h.raws, happ.raws, hraw]
  have hnodup := h.distinct
  rw [hsplit] at hnodup
  obtain ⟨hfront,-,hdisjoint⟩ := nodup_append'.mp hnodup
  rw [disjoint_singleton] at hdisjoint
  have hfilter : names.filter (· ≠ name) =
      (List.range s'.rootDirCount).map (fun k => (s'.rootDir k).raw) := by
    rw [hsplit, filter_append, filter_eq_self.mpr fun n hn => ?_]
    · simp
    · exact decide_eq_true fun he => hdisjoint (he ▸ hn)
  rw [hfilter]
  refine ⟨fun k hk => ?_,rfl,hfront⟩
  rw [← happ.same k hk]
  exact h.entries k (by omega)

theorem Names.notCreated (h : Names s names) {mode : ℕ} (hn : NotCreated s s' mode name) :
    Names s' names := by
  rcases hn with ⟨rfl,-⟩ | ⟨-,i,-,-,rfl⟩
  · exact h
  · exact h.congr rfl rfl

end

/-! ## A disk of one megabyte -/

def smallVolume : Volume := ⟨⟨0x1F0,false,2048⟩,by decide,by decide⟩

def formatted : State := after (mkfs smallVolume.disk []) unmounted

def mounted : State := after (init smallVolume.disk []) formatted

end Zohara.Zohfs
