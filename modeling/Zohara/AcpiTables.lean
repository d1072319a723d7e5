import Mathlib.Data.List.Induction
import Zohara.ByteMemory

/-!
# ACPI tables (src/acpi.rs)

A table begins with a header of 36 bytes that holds its length. The functions here answer what the
code computes and the bytes they read of the table they walk over, as offsets and sizes. The tables
that an XSDT or RSDT points to are read as well; those reads are not listed. Addresses of a table
do not wrap; the number of entries of an XSDT or RSDT is computed with a subtraction that does.

The walk over the records of a MADT looks two bytes ahead, but a record is read up to twelve bytes
behind its start.
-/
namespace Zohara.AcpiTables
open ByteMemory

/-! ## The source -/

def headerSize : ℕ := 36

def maxCores : ℕ := 64

/-- The length field of the header. -/
def tableLen (mem : Memory) (addr : ℕ) : ℕ := leNat (read mem (addr+4) 4)

abbrev Reads := List (ℕ × ℕ)

/-- What parse_madt stores; the first of the CPUs is the boot processor. -/
structure Madt where
  localApicAddr : ℕ
  ioApicAddr : ℕ
  ioApicGsiBase : ℕ
  cpus : List ℕ

section
variable (mem : Memory) (addr : ℕ)

/-- The number of `size` bytes at an offset of the table. -/
def field (offset size : ℕ) : ℕ := leNat (read mem (addr+offset) size)

def recordLen (offset : ℕ) : ℕ := field mem addr (offset+1) 1

def parseRecord (offset : ℕ) (s : Madt) : Madt × Reads :=
  match field mem addr offset 1 with
  | 0 =>
    let apicId := field mem addr (offset+3) 1
    let flags := field mem addr (offset+4) 2
    (if flags%2 ≠ 0 ∧ s.cpus.length < maxCores then {s with cpus := s.cpus++[apicId]} else s,
      [(offset+3,1),(offset+2,1),(offset+4,2)])
  | 1 =>
    let ioApicAddr := field mem addr (offset+4) 4
    let gsiBase := field mem addr (offset+8) 4
    ({s with ioApicAddr := ioApicAddr, ioApicGsiBase := gsiBase},
      [(offset+2,1),(offset+4,4),(offset+8,4)])
  | 5 =>
    let overrideAddr := field mem addr (offset+4) 8
    (if overrideAddr ≠ 0 then {s with localApicAddr := overrideAddr%2^32} else s,[(offset+4,8)])
  | _ => (s,[])

/-- The loop of parse_madt. -/
def parseFrom (len offset : ℕ) (s : Madt) : Madt × Reads :=
  if offset+2 ≤ len then
    if h : 2 ≤ recordLen mem addr offset then
      let r := parseRecord mem addr offset s
      let rest := parseFrom len (offset+recordLen mem addr offset) r.1
      (rest.1,(offset,1)::(offset+1,1)::r.2++rest.2)
    else (s,[(offset,1),(offset+1,1)])
  else (s,[])
termination_by len-offset

def parseMadt (s : Madt) : Madt × Reads :=
  let r := parseFrom mem addr (tableLen mem addr) 44 {s with localApicAddr := field mem addr 36 4}
  (r.1,(4,4)::(36,4)::(40,4)::r.2)

/-- The loop of find_table_in_xsdt (entries of 8 bytes) and find_table_in_rsdt (4 bytes). -/
def findFrom (targetSig : List UInt8) (width : ℕ) : ℕ → ℕ → Option ℕ × Reads
  | 0,_ => (none,[])
  | n+1,i =>
    let tableAddr := field mem addr (headerSize+i*width) width
    if tableAddr ≠ 0 ∧ read mem tableAddr 4 = targetSig then
      (some tableAddr,[(headerSize+i*width,width)])
    else
      let r := findFrom targetSig width n (i+1)
      (r.1,(headerSize+i*width,width)::r.2)

def tableCount (width : ℕ) : ℕ := (tableLen mem addr+2^64-headerSize)%2^64/width

def findTable (width : ℕ) (targetSig : List UInt8) : Option ℕ × Reads :=
  let r := findFrom mem addr targetSig width (tableCount mem addr width) 0
  (r.1,(4,4)::r.2)

def findTableInXsdt (targetSig : List UInt8) : Option ℕ × Reads := findTable mem addr 8 targetSig

def findTableInRsdt (targetSig : List UInt8) : Option ℕ × Reads := findTable mem addr 4 targetSig

end

/-! ## What is read -/

def Inside (reads : Reads) (len : ℕ) : Prop := ∀ r ∈ reads, r.1+r.2 ≤ len

section
variable {mem : Memory} {addr : ℕ}

/-- How many bytes of a record are read. -/
def recordReads (mem : Memory) (addr offset : ℕ) : ℕ :=
  match field mem addr offset 1 with
  | 0 => 6
  | 1 => 12
  | 5 => 12
  | _ => 2

theorem inside_cons {r : ℕ × ℕ} {reads : Reads} {len : ℕ} :
    Inside (r::reads) len ↔ r.1+r.2 ≤ len ∧ Inside reads len := List.forall_mem_cons

theorem inside_append {a b : Reads} {len : ℕ} : Inside (a++b) len ↔ Inside a len ∧ Inside b len :=
  List.forall_mem_append

theorem parseRecord_inside_iff {offset len : ℕ} (h : offset+2 ≤ len) (s : Madt) :
    Inside (parseRecord mem addr offset s).2 len ↔ offset+recordReads mem addr offset ≤ len := by
  unfold parseRecord recordReads
  split <;> simp [Inside] <;> omega

/-- A walk from the first offset comes to a record at the second one. -/
inductive Visited (mem : Memory) (addr len : ℕ) : ℕ → ℕ → Prop
  | here {offset : ℕ} : offset+2 ≤ len → Visited mem addr len offset offset
  | next {offset o : ℕ} : offset+2 ≤ len → 2 ≤ recordLen mem addr offset →
      Visited mem addr len (offset+recordLen mem addr offset) o → Visited mem addr len offset o

/-- Every record that leads on has the bytes that are read of it inside of the table. -/
def RecordsInside (mem : Memory) (addr len offset : ℕ) : Prop :=
  ∀ o, Visited mem addr len offset o → 2 ≤ recordLen mem addr o → o+recordReads mem addr o ≤ len

theorem parseFrom_inside_iff (len offset : ℕ) (s : Madt) :
    Inside (parseFrom mem addr len offset s).2 len ↔ RecordsInside mem addr len offset := by
  fun_induction parseFrom mem addr len offset s with
  | case1 offset s hle h r rest ih =>
    rw [inside_append, inside_cons, inside_cons, ih, parseRecord_inside_iff hle]
    constructor
    · rintro ⟨⟨-,-,hrec⟩,hrest⟩ o hv ho
      cases hv with
      | here _ => exact hrec
      | next _ _ hv => exact hrest o hv ho
    · intro hall
      exact ⟨⟨by omega,by omega,hall offset (.here hle) h⟩,fun o hv => hall o (.next hle h hv)⟩
  | case2 offset s hle h =>
    apply iff_of_true
    · simp [Inside]
      omega
    · intro o hv ho
      cases hv with
      | here _ => exact absurd ho h
      | next _ hlen _ => exact absurd hlen h
  | case3 offset s hle =>
    apply iff_of_true
    · simp [Inside]
    · intro o hv
      cases hv with
      | here h => exact absurd h hle
      | next h _ _ => exact absurd h hle

theorem findFrom_inside {targetSig : List UInt8} {width n i len : ℕ}
    (h : headerSize+(i+n)*width ≤ len) : Inside (findFrom mem addr targetSig width n i).2 len := by
  induction n generalizing i with
  | zero => simp [findFrom, Inside]
  | succ n ih =>
    have hentry : headerSize+i*width+width ≤ len := by
      have := Nat.mul_le_mul_right width (show i+1 ≤ i+(n+1) by omega)
      rw [Nat.succ_mul] at this
      omega
    rw [findFrom]
    split_ifs
    · simpa [Inside] using hentry
    · exact inside_cons.mpr ⟨hentry,ih (by rwa [Nat.add_right_comm, Nat.add_assoc])⟩

theorem findFrom_first {targetSig : List UInt8} {width n : ℕ} (i : ℕ) (hn : 0 < n) :
    (headerSize+i*width,width) ∈ (findFrom mem addr targetSig width n i).2 := by
  obtain ⟨n,rfl⟩ := Nat.exists_eq_add_of_lt hn
  rw [Nat.zero_add, findFrom]
  split_ifs <;> simp

/-- The count is right and the entries read are inside of the table exactly if the length covers
the header. -/
theorem findTable_inside_iff {width : ℕ} (hpos : 0 < width) (hw : width ≤ 8)
    (targetSig : List UInt8) :
    ((tableCount mem addr width : ℤ) = ((tableLen mem addr : ℤ)-headerSize)/width ∧
      Inside (findTable mem addr width targetSig).2 (tableLen mem addr)) ↔
    headerSize ≤ tableLen mem addr := by
  have hlt : tableLen mem addr < 2^32 := by
    simpa [tableLen] using leNat_lt (read mem (addr+4) 4)
  have hcases : (tableLen mem addr+2^64-headerSize)%2^64 = if headerSize ≤ tableLen mem addr then
      tableLen mem addr-headerSize else tableLen mem addr+2^64-headerSize := by
    unfold headerSize
    split_ifs <;> omega
  constructor
  · rintro ⟨-,hin⟩
    by_contra hshort
    have hcount : 0 < tableCount mem addr width := by
      rw [tableCount, hcases, if_neg hshort]
      exact Nat.div_pos (by unfold headerSize; omega) hpos
    have hfirst := (inside_cons.mp hin).2 _ (findFrom_first 0 hcount)
    omega
  · intro hle
    rw [findTable, tableCount, hcases, if_pos hle]
    refine ⟨?_,inside_cons.mpr ⟨by unfold headerSize at hle; omega,findFrom_inside ?_⟩⟩
    · rw [Int.natCast_ediv, Nat.cast_sub hle]
    · have := Nat.div_mul_le_self (tableLen mem addr-headerSize) width
      rw [Nat.zero_add]
      omega

end

/-- The walk over a MADT ends and reads inside of the table exactly if the table has its fixed
part and the bytes that are read of each record of types 0, 1 and 5 that the walk comes to. The
other two walks do, with a right count, exactly if the length covers the header. -/
theorem tables_inside_iff (mem : Memory) (addr : ℕ) (s : Madt) (targetSig : List UInt8) :
    (Inside (parseMadt mem addr s).2 (tableLen mem addr) ↔
      44 ≤ tableLen mem addr ∧ RecordsInside mem addr (tableLen mem addr) 44) ∧
    (((tableCount mem addr 8 : ℤ) = ((tableLen mem addr : ℤ)-headerSize)/8 ∧
      Inside (findTableInXsdt mem addr targetSig).2 (tableLen mem addr)) ↔
        headerSize ≤ tableLen mem addr) ∧
    (((tableCount mem addr 4 : ℤ) = ((tableLen mem addr : ℤ)-headerSize)/4 ∧
      Inside (findTableInRsdt mem addr targetSig).2 (tableLen mem addr)) ↔
        headerSize ≤ tableLen mem addr) := by
  refine ⟨?_,findTable_inside_iff (by decide) le_rfl targetSig,
    findTable_inside_iff (by decide) (by decide) targetSig⟩
  rw [parseMadt, inside_cons, inside_cons, inside_cons, parseFrom_inside_iff]
  constructor
  · rintro ⟨-,-,hfixed,hrecords⟩
    exact ⟨hfixed,hrecords⟩
  · rintro ⟨hfixed,hrecords⟩
    exact ⟨by omega,by omega,hfixed,hrecords⟩

/-- A MADT of 46 bytes: its one record has type 1 and length 2. -/
def shortMadt : Memory := write (write (fun _ => 0) 4 [46]) 44 [1,2]

/-- The record is read up to offset 56, and a header of length 35 makes 2^61-1 entries. -/
theorem tables_outside : (∃ r ∈ (parseMadt shortMadt 0 ⟨0,0,0,[]⟩).2, r = (52,4)) ∧
    tableLen shortMadt 0 = 46 ∧ tableLen (write (fun _ => 0) 4 [35]) 0 = 35 ∧
    tableCount (write (fun _ => 0) 4 [35]) 0 8 = 2^61-1 := by
  decide +kernel

/-! ## What is stored -/

open List

structure CpuInfo where
  apicId : ℕ
  coreId : ℕ
  isBsp : Bool

variable (cpus : ℕ → Option CpuInfo)

/-- The stores to CPUS and CPU_COUNT, from a count of zero on. -/
def storeCpus (ids : List ℕ) : (ℕ → Option CpuInfo) × ℕ :=
  ids.foldl (fun t id => (Function.update t.1 t.2 (some ⟨id,t.2,t.2 == 0⟩),t.2+1)) (cpus,0)

theorem storeCpus_eq (ids : List ℕ) : storeCpus cpus ids =
    (fun i => if i < ids.length then some ⟨ids.getD i 0,i,i == 0⟩ else cpus i,ids.length) := by
  induction ids using reverseRecOn with
  | nil => rfl
  | append_singleton ids id ih =>
    unfold storeCpus at ih ⊢
    rw [foldl_append, ih, foldl_cons, foldl_nil]
    refine Prod.ext (funext fun i => ?_) (by simp)
    grind [Function.update_apply]

/-- The value of `f` at the last record with `p`, or `d` if there is none. -/
def atLast (p : ℕ → Bool) (f : ℕ → ℕ) (d : ℕ) (os : List ℕ) : ℕ :=
  ((os.filter p).getLast?.map f).getD d

theorem atLast_snoc (p : ℕ → Bool) (f : ℕ → ℕ) (d o : ℕ) (os : List ℕ) :
    atLast p f d (os++[o]) = if p o then f o else atLast p f d os := by
  unfold atLast
  split_ifs with h <;> simp [filter_append, h]

section
variable (mem : Memory) (addr : ℕ)

/-- The records from the first offset on have the lengths of their types and end with the table. -/
inductive Tiles (len : ℕ) : ℕ → List ℕ → Prop
  | done : Tiles len len []
  | record {o : ℕ} {os : List ℕ} :
      (match field mem addr o 1 with
        | 0 => recordLen mem addr o = 8
        | 1 | 5 => recordLen mem addr o = 12
        | _ => 2 ≤ recordLen mem addr o) → o+recordLen mem addr o ≤ len →
      Tiles len (o+recordLen mem addr o) os → Tiles len o (o::os)

/-- The ids of the enabled processors. -/
def enabled (os : List ℕ) : List ℕ := os.filterMap fun o =>
  if field mem addr o 1 = 0 ∧ field mem addr (o+4) 2%2 ≠ 0 then some (field mem addr (o+3) 1) else none

/-- What the records at `os` say, with the values of `s` where they say nothing. -/
def listed (os : List ℕ) (s : Madt) : Madt where
  localApicAddr := atLast (fun o => field mem addr o 1 = 5 ∧ field mem addr (o+4) 8 ≠ 0)
    (fun o => field mem addr (o+4) 8%2^32) s.localApicAddr os
  ioApicAddr := atLast (field mem addr · 1 = 1) (fun o => field mem addr (o+4) 4) s.ioApicAddr os
  ioApicGsiBase :=
    atLast (field mem addr · 1 = 1) (fun o => field mem addr (o+8) 4) s.ioApicGsiBase os
  cpus := (enabled mem addr os).take maxCores

end

section
variable {mem : Memory} {addr len o : ℕ} {os : List ℕ} {s : Madt}

theorem parseFrom_records (h : Tiles mem addr len o os) (s : Madt) :
    (parseFrom mem addr len o s).1 = os.foldl (fun s o => (parseRecord mem addr o s).1) s := by
  induction h generalizing s with
  | done => rw [parseFrom, if_neg (by omega), foldl_nil]
  | @record o os hlen hle _ ih =>
    have h2 : 2 ≤ recordLen mem addr o := by split at hlen <;> omega
    rw [parseFrom, if_pos (by omega), dif_pos h2]
    exact ih _

theorem enabled_snoc : enabled mem addr (os++[o]) = enabled mem addr os++
    if field mem addr o 1 = 0 ∧ field mem addr (o+4) 2%2 ≠ 0 then [field mem addr (o+3) 1] else [] := by
  rw [enabled, filterMap_append, filterMap_cons, filterMap_nil, enabled]
  split_ifs <;> rfl

theorem records_listed (hs : s.cpus = []) :
    os.foldl (fun s o => (parseRecord mem addr o s).1) s = listed mem addr os s := by
  induction os using reverseRecOn with
  | nil =>
    cases s
    cases hs
    rfl
  | append_singleton os o ih =>
    rw [foldl_append, ih, foldl_cons, foldl_nil, parseRecord]
    simp only [listed, atLast_snoc, enabled_snoc]
    split
    next ht =>
      by_cases hon : field mem addr (o+4) 2%2 = 1
      · by_cases hroom : (enabled mem addr os).length < maxCores
        · simp [ht, hon, hroom, take_append,
            take_of_length_le (l := [field mem addr (o+3) 1]) (Nat.sub_pos_of_lt hroom)]
        · simp [ht, hon, hroom, take_append]
          omega
      · simp [ht, hon]
    next ht => simp [ht]
    next ht => by_cases hzero : field mem addr (o+4) 8 = 0 <;> simp [ht, hzero]
    next h0 h1 h5 => simp [show ¬_ from h0, show ¬_ from h1, show ¬_ from h5]

/-- For a table made of its records, parse_madt stores what they say: the first 64 enabled
processors in order, and of the other records the last one. -/
theorem madt_stored (hs : s.cpus = []) (h : Tiles mem addr (tableLen mem addr) 44 os) :
    (parseMadt mem addr s).1 = listed mem addr os {s with localApicAddr := field mem addr 36 4} ∧
      storeCpus cpus (parseMadt mem addr s).1.cpus =
        (fun i => if i < min maxCores (enabled mem addr os).length then
            some ⟨(enabled mem addr os).getD i 0,i,i == 0⟩ else cpus i,
          min maxCores (enabled mem addr os).length) := by
  have hparse := (parseFrom_records h _).trans
    (records_listed (s := {s with localApicAddr := field mem addr 36 4}) hs)
  refine ⟨hparse,?_⟩
  rw [parseMadt, hparse, storeCpus_eq, listed, length_take]
  grind

/-- One enabled processor with id 7. -/
def oneCpu : Memory := write (write (fun _ => 0) 4 [52]) 44 [0,8,0,7,1]

theorem madt_stored_one :
    (storeCpus (fun _ => none) (parseMadt oneCpu 0 ⟨0,0,0,[]⟩).1.cpus).1 0 = some ⟨7,0,true⟩ := by
  have htiles : Tiles oneCpu 0 (tableLen oneCpu 0) 44 [44] := .record rfl (by decide) .done
  rw [(madt_stored _ rfl htiles).2]
  rfl

end

end Zohara.AcpiTables
