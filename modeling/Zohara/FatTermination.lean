import Zohara.DiskLoop
import Zohara.FatChains

/-!
# Which FAT32 operations come to an end

Four loops of the source follow a chain of clusters without a bound: free_cluster_chain,
last_cluster and the searches of create_file_entry and delete_file_entry. Here they are given any
number of turns, and mount state, disk and contents are arbitrary: a link may lead anywhere, the
FAT may lie outside the disk. An operation ends if from some number of turns on more turns make no
difference. Each transfer is counted in the state, so the runs of an endless loop with different
numbers of turns are all different.

All other loops of the source have a bound, and their models have no turns.
-/
namespace Zohara.Fat32
open ByteMemory FallibleState IdeDisk TurnLoop Relation

/-- The slot of a name, and the cluster where it is. -/
structure FoundSlot where
  cluster : ℕ
  buf : List UInt8
  slot : ℕ

/-- Where the file begins. -/
def FoundSlot.start (h : FoundSlot) : ℕ :=
  (h.buf.getD (h.slot*32+20) 0).toNat*2^16+(h.buf.getD (h.slot*32+26) 0).toNat

namespace Fat32Fs
variable (fs : Fat32Fs) (disk : IdeDisk)

/-! ## Operations with a number of turns -/

def takeCluster : Action Drives ℕ := do
  let fileCluster ← fs.allocCluster disk
  fs.markEoc disk fileCluster
  return fileCluster

def createWithin (turns dirCluster : ℕ) (name : List UInt8) (isDir : Bool) : Action Drives ℕ := do
  let fileCluster ← fs.takeCluster disk
  fs.createFrom disk (newEntry (to83 name) isDir fileCluster) turns dirCluster
  return fileCluster

/-- The search of delete_file_entry. -/
def findFrom (short : List UInt8 × List UInt8) : ℕ → ℕ → Action Drives FoundSlot
  | 0,_ => throw .panic
  | n+1,cluster => do
    let clusterBuf ← fs.readCluster disk cluster fs.clusterSize
    match fs.matchSlot clusterBuf short with
    | some i =>
      if clusterBuf.getD (i*32) 0 = 0 then throw (.err "file not found")
      else return ⟨cluster,clusterBuf,i⟩
    | none => do
      let next ← fs.nextCluster disk cluster
      if next = 0 then throw (.err "file not found")
      else findFrom short n next

def eraseWithin (turns : ℕ) (h : FoundSlot) : Action Drives Unit := do
  if 2 ≤ h.start then fs.freeFrom disk turns h.start else pure ()
  fs.writeCluster disk h.cluster (patch h.buf (h.slot*32) [0xE5])

def deleteWithin (turns dirCluster : ℕ) (name : List UInt8) : Action Drives Unit := do
  let h ← fs.findFrom disk (to83 name) turns dirCluster
  fs.eraseWithin disk turns h

theorem createFileEntry_eq (d : ℕ) (name : List UInt8) (isDir : Bool) :
    fs.createFileEntry disk d name isDir = fs.createWithin disk (fs.totalClusters+1) d name isDir := by
  unfold createFileEntry createWithin takeCluster
  simp only [bind_assoc, pure_bind]

theorem deleteSlot_eq (c : ℕ) (buf : List UInt8) (i : ℕ) :
    fs.deleteSlot disk c buf i = fs.eraseWithin disk (fs.totalClusters+1) ⟨c,buf,i⟩ := rfl

theorem deleteFrom_eq (short : List UInt8 × List UInt8) (n c : ℕ) :
    fs.deleteFrom disk short n c =
      fs.findFrom disk short n c >>= fun h => fs.eraseWithin disk (fs.totalClusters+1) h := by
  induction n generalizing c with
  | zero => rfl
  | succ n ih =>
    rw [deleteFrom, findFrom, bind_assoc]
    congr 1
    funext buf
    cases fs.matchSlot buf short with
    | some i =>
      dsimp only
      split
      · rfl
      · rw [deleteSlot_eq, pure_bind]
    | none =>
      dsimp only
      rw [bind_assoc]
      congr 1
      funext next
      split
      · rfl
      · exact ih next

theorem deleteFileEntry_eq (d : ℕ) (name : List UInt8) :
    fs.deleteFileEntry disk d name = fs.deleteWithin disk (fs.totalClusters+1) d name :=
  fs.deleteFrom_eq disk _ _ d

/-! ## One turn -/

/-- A cluster is read, and the chain followed unless this is the last one. -/
def scanTurn (last : List UInt8 → Bool) (cluster : ℕ) : Action Drives ℕ := do
  let clusterBuf ← fs.readCluster disk cluster fs.clusterSize
  if last clusterBuf then return 0 else fs.nextCluster disk cluster

def createTurn : ℕ → Action Drives ℕ := fs.scanTurn disk fun buf => (fs.freeSlot buf).isSome

def searchTurn (short : List UInt8 × List UInt8) : ℕ → Action Drives ℕ :=
  fs.scanTurn disk fun buf => (fs.matchSlot buf short).isSome

def freeTurn (cluster : ℕ) : Action Drives ℕ :=
  if cluster < 2 ∨ fs.totalClusters ≤ cluster then return 0
  else do
    let next ← fs.nextCluster disk cluster
    fs.freeCluster disk cluster
    if next = 0 ∨ 0x0FFFFFF8 ≤ next then return 0 else return next

end Fat32Fs

open Fat32Fs

variable {fs : Fat32Fs} {disk : IdeDisk} {w : Drives} {c d len : ℕ}

/-! ## What the accesses depend on -/

theorem byImage_readSectors (first s n : ℕ) : ByImage disk (readSectors disk first s n) := by
  induction n generalizing s with
  | zero => exact .pure []
  | succ n ih => exact (byImage_readSector _).bind fun _ => (ih (s+1)).bind fun _ => .pure _

theorem byImage_readCluster : ByImage disk (fs.readCluster disk c len) := by
  unfold Fat32Fs.readCluster
  split
  · exact .throw _
  · split
    · exact .throw _
    · exact (byImage_readSectors _ _ _).bind fun _ => .pure _

theorem byImage_nextCluster : ByImage disk (fs.nextCluster disk c) := by
  unfold Fat32Fs.nextCluster
  split
  · exact .throw _
  · refine (byImage_readSector _).bind fun buf => ?_
    split
    · exact .throw _
    · dsimp only
      split
      · exact .pure _
      · split
        · exact .throw _
        · exact .pure _

theorem byImage_allocFrom (sec n : ℕ) : ByImage disk (fs.allocFrom disk sec n) := by
  induction n generalizing sec with
  | zero => exact .throw _
  | succ n ih =>
    rw [Fat32Fs.allocFrom]
    refine (byImage_readSector _).bind fun buf => ?_
    dsimp only
    split
    · exact .pure _
    · split
      · exact .throw _
      · exact ih (sec+1)

theorem byImage_writeCopies (sector : ℕ) (buf : List UInt8) (f n : ℕ) :
    ByImage disk (fs.writeCopies disk sector buf f n) := by
  induction n generalizing f with
  | zero => exact .pure _
  | succ n ih => exact (byImage_writeSector _ _).bind fun _ => ih (f+1)

theorem byImage_setFatEntry (value : ℕ) : ByImage disk (fs.setFatEntry disk c value) := by
  unfold Fat32Fs.setFatEntry
  split
  · exact .throw _
  · refine (byImage_readSector _).bind fun buf => ?_
    split
    · exact .throw _
    · exact byImage_writeCopies _ _ _ _

theorem byImage_takeCluster : ByImage disk (fs.takeCluster disk) :=
  (byImage_allocFrom _ _).bind fun _ => (byImage_setFatEntry _).bind fun _ => .pure _

theorem byImage_scanTurn (last : List UInt8 → Bool) : ByImage disk (fs.scanTurn disk last c) := by
  refine byImage_readCluster.bind fun buf => ?_
  split
  · exact .pure _
  · exact byImage_nextCluster

theorem byImage_freeTurn : ByImage disk (fs.freeTurn disk c) := by
  unfold Fat32Fs.freeTurn
  split
  · exact .pure _
  · refine byImage_nextCluster.bind fun next => (byImage_setFatEntry _).bind fun _ => ?_
    split <;> exact .pure _

theorem byImage_findFrom (short : List UInt8 × List UInt8) (n c : ℕ) :
    ByImage disk (fs.findFrom disk short n c) := by
  induction n generalizing c with
  | zero => exact .throw _
  | succ n ih =>
    rw [Fat32Fs.findFrom]
    refine byImage_readCluster.bind fun buf => ?_
    split
    · split
      · exact .throw _
      · exact .pure _
    · refine byImage_nextCluster.bind fun next => ?_
      split
      · exact .throw _
      · exact ih next

/-! ## What the accesses change -/

theorem readSectors_keeps (first s n : ℕ) : Ends (readSectors disk first s n) w
    (fun _ w' => disk.contents w' = disk.contents w ∧ w.transfers ≤ w'.transfers)
    fun _ _ => True := by
  induction n generalizing s w with
  | zero => exact ends_pure ⟨rfl,le_rfl⟩
  | succ n ih =>
    refine Ends.bind (readSector_advances _) ?_
    rintro _ w₁ ⟨_,hw₁,hlt₁⟩
    refine Ends.bind (ih (s+1)) ?_
    rintro _ w₂ ⟨hw₂,hle₂⟩
    exact ends_pure ⟨hw₂.trans hw₁,by omega⟩

theorem readCluster_keeps : Ends (fs.readCluster disk c len) w
    (fun _ w' => disk.contents w' = disk.contents w ∧ w.transfers ≤ w'.transfers)
    fun _ _ => True := by
  unfold Fat32Fs.readCluster
  split
  · exact ends_throw trivial
  · split
    · exact ends_throw trivial
    · exact Ends.bind (readSectors_keeps _ _ _) fun _ _ h => ends_pure h

theorem nextCluster_advances : Ends (fs.nextCluster disk c) w
    (fun d w' => d < 2^28 ∧ disk.contents w' = disk.contents w ∧ w.transfers < w'.transfers)
    fun _ _ => True := by
  unfold Fat32Fs.nextCluster
  split
  · exact ends_throw trivial
  · refine Ends.bind (readSector_advances _) ?_
    rintro buf w' ⟨_,hw',hlt⟩
    split
    · exact ends_throw trivial
    · dsimp only
      split
      · exact ends_pure ⟨by decide,hw',hlt⟩
      · split
        · exact ends_throw trivial
        · exact ends_pure ⟨Nat.mod_lt _ (by decide),hw',hlt⟩

variable (disk) in
/-- What an access leaves behind: the driver reaches 2^28 sectors. -/
structure Within (w w' : Drives) : Prop where
  le : w.transfers ≤ w'.transfers
  outside : ∀ a, 2^37 ≤ a → disk.contents w' a = disk.contents w a

theorem Within.trans {w₁ w₂ : Drives} (h : Within disk w w₁) (h' : Within disk w₁ w₂) :
    Within disk w w₂ :=
  ⟨h.le.trans h'.le,fun a ha => (h'.outside a ha).trans (h.outside a ha)⟩

theorem writeSector_within {lba : ℕ} {buf : List UInt8} (hbuf : buf.length = sectorSize) :
    Ends (disk.writeSector lba buf) w (fun _ w' => Within disk w w') fun _ _ => True := by
  refine Ends.mono (writeSector_computes lba buf) ?_ fun _ _ _ => trivial
  rintro _ w' ⟨hw',hlater⟩
  refine ⟨hlater.le,fun a ha => ?_⟩
  by_cases hlba : disk.totalSectors ≤ lba
  · rw [if_pos hlba] at hw'
    cases hw'
  · rw [if_neg hlba] at hw'
    have hwrite : write (disk.contents w) (sectorAddr lba) buf = disk.contents w' :=
      congrArg Prod.snd (Option.some.inj hw')
    rw [← hwrite]
    apply write_outside
    rw [hbuf]
    unfold sectorAddr sectorSize
    omega

theorem writeCopies_within {sector : ℕ} {buf : List UInt8} (hbuf : buf.length = sectorSize)
    (f n : ℕ) : Ends (fs.writeCopies disk sector buf f n) w (fun _ w' => Within disk w w')
      fun _ _ => True := by
  induction n generalizing f w with
  | zero => exact ends_pure ⟨le_rfl,fun _ _ => rfl⟩
  | succ n ih =>
    exact Ends.bind (writeSector_within hbuf) fun _ _ h => Ends.imp (ih (f+1)) fun _ _ => h.trans

theorem setFatEntry_within (value : ℕ) : Ends (fs.setFatEntry disk c value) w
    (fun _ w' => Within disk w w') fun _ _ => True := by
  unfold Fat32Fs.setFatEntry
  split
  · exact ends_throw trivial
  · refine Ends.bind (readSector_advances _) ?_
    rintro buf w₁ ⟨hbuf,hw₁,hlt₁⟩
    split
    · exact ends_throw trivial
    · have hpatch : (patch buf (c*4%2^32%fs.bytesPerSector) (toLe 4 (value%2^28))).length =
          sectorSize := by
        rw [length_patch (by rw [length_toLe]; omega), hbuf]
      have hread : Within disk w w₁ := ⟨hlt₁.le,fun a _ => congrFun hw₁ a⟩
      exact Ends.imp (writeCopies_within hpatch _ _) fun _ _ => hread.trans

/-! ## The loops -/

theorem scanTurn_reads (last : List UInt8 → Bool) : Ends (fs.scanTurn disk last c) w
    (fun d w' => d < 2^28 ∧ (d ≠ 0 → w.transfers < w'.transfers) ∧
      disk.contents w' = disk.contents w) fun _ _ => True := by
  refine Ends.bind readCluster_keeps ?_
  rintro buf w₁ ⟨hw₁,hle₁⟩
  split
  · exact ends_pure ⟨by decide,fun h => absurd rfl h,hw₁⟩
  · refine Ends.imp nextCluster_advances ?_
    rintro d w₂ ⟨hd,hw₂,hlt₂⟩
    exact ⟨hd,fun _ => by omega,hw₂.trans hw₁⟩

variable {last : List UInt8 → Bool}

theorem scanTurn_keeps : Ends (fs.scanTurn disk last c) w
    (fun _ w' => disk.contents w' = disk.contents w) fun _ _ => True :=
  Ends.imp (scanTurn_reads last) fun _ _ h => h.2.2

theorem scan_cases {α : Type} {x : ℕ → ℕ → Action Drives α}
    (found : ℕ → List UInt8 → Action Drives α) (missed : ℕ → Action Drives α)
    (hx : ∀ n c, x (n+1) c = do
      let buf ← fs.readCluster disk c fs.clusterSize
      if last buf then found c buf
      else do
        let next ← fs.nextCluster disk c
        if next = 0 then missed c else x n next) (c : ℕ) (w : Drives) :
    (∃ d w', fs.scanTurn disk last c w = .ok d w' ∧ d ≠ 0 ∧ ∀ n, x (n+1) c w = x n d w') ∨
      (∀ n, x (n+1) c w = x 1 c w) ∧ ∀ d w', fs.scanTurn disk last c w = .ok d w' → d = 0 := by
  unfold scanTurn
  simp only [hx]
  cases hread : fs.readCluster disk c fs.clusterSize w with
  | error e w₁ =>
    simp only [bind_error hread]
    exact .inr ⟨fun _ => trivial,fun _ _ h => by cases h⟩
  | ok buf w₁ =>
    simp only [bind_ok hread]
    by_cases hlast : last buf
    · simp only [if_pos hlast]
      exact .inr ⟨fun _ => trivial,fun _ _ h => by cases h; rfl⟩
    · simp only [if_neg hlast]
      cases hnext : fs.nextCluster disk c w₁ with
      | error e w₂ =>
        simp only [bind_error hnext]
        exact .inr ⟨fun _ => trivial,fun _ _ h => by cases h⟩
      | ok d w₂ =>
        simp only [bind_ok hnext]
        by_cases hd : d = 0
        · simp only [if_pos hd]
          exact .inr ⟨fun _ => trivial,fun _ _ h => by cases h; exact hd⟩
        · exact .inl ⟨d,w₂,rfl,hd,fun _ => by rw [if_neg hd]⟩

theorem scanLoop {α : Type} {x : ℕ → ℕ → Action Drives α}
    (found : ℕ → List UInt8 → Action Drives α) (missed : ℕ → Action Drives α)
    (hout : ∀ c, x 0 c = throw .panic)
    (hx : ∀ n c, x (n+1) c = do
      let buf ← fs.readCluster disk c fs.clusterSize
      if last buf then found c buf
      else do
        let next ← fs.nextCluster disk c
        if next = 0 then missed c else x n next) :
    DiskLoop disk x (fs.scanTurn disk last) where
  out c w := by
    rw [hout]
    rfl
  goes := by
    intro c d w w' hturn hd n
    obtain ⟨d',w₁,hturn',_,hgo⟩ | ⟨_,hzero⟩ := scan_cases found missed hx c w
    · cases hturn.symm.trans hturn'
      exact hgo n
    · exact absurd (hzero d w' hturn) hd
  ends := by
    intro c w w' hturn n
    obtain ⟨d,w₁,hturn',hd,_⟩ | ⟨hstop,_⟩ := scan_cases found missed hx c w
    · cases hturn.symm.trans hturn'
      exact absurd rfl hd
    · exact hstop n
  fails := by
    intro c e w w' hturn n
    obtain ⟨d,w₁,hturn',_⟩ | ⟨hstop,_⟩ := scan_cases found missed hx c w
    · rw [hturn] at hturn'
      cases hturn'
    · exact hstop n
  byImage c := byImage_scanTurn last
  confined c w := Ends.imp (scanTurn_reads last) fun _ _ h => ⟨h.1,h.2.1,fun a _ => congrFun h.2.2 a⟩

theorem createFrom_loop (entry : List UInt8) :
    DiskLoop disk (fs.createFrom disk entry) (fs.createTurn disk) := by
  refine scanLoop
    (fun c buf => fs.writeCluster disk c (patch buf ((fs.freeSlot buf).getD 0*32) entry))
    (fun c => do
      let newCluster ← fs.allocCluster disk
      fs.setFatEntry disk c newCluster
      fs.markEoc disk newCluster
      fs.writeCluster disk newCluster (List.replicate fs.clusterSize 0)
      fs.writeCluster disk newCluster (patch (List.replicate fs.clusterSize 0) 0 entry))
    (fun _ => rfl) fun n c => ?_
  rw [createFrom]
  congr 1
  funext buf
  cases fs.freeSlot buf <;> rfl

theorem findFrom_loop (short : List UInt8 × List UInt8) :
    DiskLoop disk (fs.findFrom disk short) (fs.searchTurn disk short) := by
  refine scanLoop (fun c buf =>
      if buf.getD ((fs.matchSlot buf short).getD 0*32) 0 = 0 then throw (.err "file not found")
      else return ⟨c,buf,(fs.matchSlot buf short).getD 0⟩)
    (fun _ => throw (.err "file not found")) (fun _ => rfl) fun n c => ?_
  rw [findFrom]
  congr 1
  funext buf
  cases fs.matchSlot buf short <;> rfl

theorem lastFrom_loop : DiskLoop disk (fs.lastFrom disk) (fs.nextCluster disk) := by
  refine .of_turn (fun c => pure c) (fun _ => rfl) (fun _ _ => rfl)
    (fun _ => byImage_nextCluster) fun c w => ?_
  refine Ends.imp nextCluster_advances ?_
  rintro d w' ⟨hd,hw',hlt⟩
  exact ⟨hd,fun _ => hlt,fun a _ => congrFun hw' a⟩

theorem freeTurn_confined : Ends (fs.freeTurn disk c) w
    (fun d w' => d < 2^28 ∧ (d ≠ 0 → w.transfers < w'.transfers) ∧
      ∀ a, 2^37 ≤ a → disk.contents w' a = disk.contents w a) fun _ _ => True := by
  unfold freeTurn
  split
  · exact ends_pure ⟨by decide,fun h => absurd rfl h,fun _ _ => rfl⟩
  · refine Ends.bind nextCluster_advances ?_
    rintro d w₁ ⟨hd,hw₁,hlt₁⟩
    refine Ends.bind (setFatEntry_within 0) ?_
    intro _ w₂ h₂
    have hle₂ := h₂.le
    have hkept : ∀ a, 2^37 ≤ a → disk.contents w₂ a = disk.contents w a := fun a ha =>
      (h₂.outside a ha).trans (congrFun hw₁ a)
    split
    · exact ends_pure ⟨by decide,fun h => absurd rfl h,hkept⟩
    · exact ends_pure ⟨hd,fun _ => by omega,hkept⟩

theorem freeFrom_loop : DiskLoop disk (fs.freeFrom disk) (fs.freeTurn disk) := by
  refine .of_turn (fun _ => pure ()) (fun _ => rfl) ?_ (fun _ => byImage_freeTurn)
    fun c w => freeTurn_confined
  intro n c
  rw [freeFrom, freeTurn]
  split
  · rfl
  · rw [bind_assoc]
    congr 1
    funext next
    rw [bind_assoc]
    congr 1
    funext _
    by_cases hend : next = 0 ∨ 0x0FFFFFF8 ≤ next
    · rw [if_pos hend, if_pos hend]
      rfl
    · rw [if_neg hend, if_neg hend, pure_bind, if_neg fun h => hend (.inl h)]

/-! ## The operations -/

/-- The public functions of the source. -/
inductive Operation where
  | init
  | readCluster (cluster len : ℕ)
  | nextCluster (cluster : ℕ)
  | readFileData (startCluster size len : ℕ)
  | readdir (dirCluster : ℕ)
  | allocCluster
  | setFatEntry (cluster value : ℕ)
  | markEoc (cluster : ℕ)
  | freeCluster (cluster : ℕ)
  | freeClusterChain (startCluster : ℕ)
  | lastCluster (startCluster : ℕ)
  | writeCluster (cluster : ℕ) (data : List UInt8)
  | writeFileData (startCluster offset : ℕ) (data : List UInt8)
  | createFileEntry (dirCluster : ℕ) (name : List UInt8) (isDir : Bool)
  | deleteFileEntry (dirCluster : ℕ) (name : List UInt8)

namespace Operation

/-- The operation with a number of turns for each loop without a bound; the answer is dropped. -/
def run (fs : Fat32Fs) (disk : IdeDisk) (turns : ℕ) : Operation → Action Drives Unit
  | .init => do let _ ← Fat32.init disk
  | .readCluster cluster len => do let _ ← fs.readCluster disk cluster len
  | .nextCluster cluster => do let _ ← fs.nextCluster disk cluster
  | .readFileData startCluster size len => do let _ ← fs.readFileData disk startCluster size len
  | .readdir dirCluster => do let _ ← fs.readdir disk dirCluster
  | .allocCluster => do let _ ← fs.allocCluster disk
  | .setFatEntry cluster value => fs.setFatEntry disk cluster value
  | .markEoc cluster => fs.markEoc disk cluster
  | .freeCluster cluster => fs.freeCluster disk cluster
  | .freeClusterChain startCluster => fs.freeFrom disk turns startCluster
  | .lastCluster startCluster => do let _ ← fs.lastFrom disk turns startCluster
  | .writeCluster cluster data => fs.writeCluster disk cluster data
  | .writeFileData startCluster offset data => do
    let _ ← fs.writeFileData disk startCluster offset data
  | .createFileEntry dirCluster name isDir => do
    let _ ← fs.createWithin disk turns dirCluster name isDir
  | .deleteFileEntry dirCluster name => fs.deleteWithin disk turns dirCluster name

def Terminates (fs : Fat32Fs) (disk : IdeDisk) (w : Drives) (op : Operation) : Prop :=
  Settles (fun turns => op.run fs disk turns) w

/-- The operation comes to a cycle of the disk with the contents `m`. create_file_entry looks for a
slot after it has taken a cluster; delete_file_entry has two walks, for the slot and over the chain
of the file. -/
def Circles (fs : Fat32Fs) (disk : IdeDisk) (m : Memory) : Operation → Prop
  | .freeClusterChain c => Cycles (Leads disk (fs.freeTurn disk)) (c,m)
  | .lastCluster c => Cycles (Leads disk (fs.nextCluster disk)) (c,m)
  | .createFileEntry d _ _ => ∃ f m', onImage disk (fs.takeCluster disk) m = some (f,m') ∧
      Cycles (Leads disk (fs.createTurn disk)) (d,m')
  | .deleteFileEntry d name => Cycles (Leads disk (fs.searchTurn disk (to83 name))) (d,m) ∨
      ∃ p h m', ReflTransGen (Leads disk (fs.searchTurn disk (to83 name))) (d,m) p ∧
        onImage disk (fs.findFrom disk (to83 name) 1 p.1) p.2 = some (h,m') ∧
          2 ≤ h.start ∧ Cycles (Leads disk (fs.freeTurn disk)) (h.start,m')
  | _ => False

end Operation

theorem erase_settles (h : FoundSlot) : Settles (fun n => fs.eraseWithin disk n h) w ↔
    ¬(w.Quiet ∧ 2 ≤ h.start ∧ Cycles (Leads disk (fs.freeTurn disk)) (h.start,disk.contents w)) := by
  by_cases hstart : 2 ≤ h.start
  · rw [and_iff_right hstart]
    simp only [eraseWithin, if_pos hstart]
    exact freeFrom_loop.settles_bind_iff _
  · refine iff_of_true ?_ fun hcycle => hstart hcycle.2.1
    simp only [eraseWithin, if_neg hstart]
    exact settles_const _

variable {name : List UInt8}

theorem create_settles {isDir : Bool} :
    Settles (fun n => (Operation.createFileEntry d name isDir).run fs disk n) w ↔
      ¬(w.Quiet ∧ (Operation.createFileEntry d name isDir).Circles fs disk (disk.contents w)) := by
  simp only [Operation.run, createWithin, bind_assoc, pure_bind]
  have himage : Computes disk (fs.takeCluster disk) w _ := byImage_takeCluster w
  cases htake : fs.takeCluster disk w with
  | error e w₁ =>
    refine iff_of_true (settles_bind_error (k := 0) fun _ _ => htake) ?_
    rintro ⟨hq,f,m',htaken,_⟩
    rcases himage.error htake with hnone | hfail
    · rw [hnone] at htaken
      cases htaken
    · exact hfail hq
  | ok f w₁ =>
    obtain ⟨htaken,hlater⟩ := himage.ok htake
    refine (settles_bind_ok (k := 0) fun _ _ => htake).trans
      (((createFrom_loop _).settles_bind_iff _).trans (not_congr (and_congr hlater.quiet_iff ?_)))
    constructor
    · exact fun hc => ⟨f,_,htaken,hc⟩
    · rintro ⟨f',m',htaken',hc⟩
      cases htaken.symm.trans htaken'
      exact hc

theorem not_leads_of_found {short : List UInt8 × List UInt8} {p q : ℕ × Memory} {h : FoundSlot}
    {m' : Memory} (hfound : onImage disk (fs.findFrom disk short 1 p.1) p.2 = some (h,m')) :
    ¬Leads disk (fs.searchTurn disk short) p q := by
  intro hlead
  obtain ⟨w',_,_,_,hgo⟩ := (findFrom_loop short).leads_cases (c := p.1) (still_quiet p.2) hlead
  unfold onImage at hfound
  rw [hgo 0, (findFrom_loop short).out] at hfound
  cases hfound

/-- The search comes to its last turn, and the slot is erased if it was found. -/
theorem delete_settles_quiet (hq : w.Quiet)
    (hc : ¬Cycles (Leads disk (fs.searchTurn disk (to83 name))) (d,disk.contents w)) :
    Settles (fun n => fs.deleteWithin disk n d name) w ↔
      ¬∃ p h m', ReflTransGen (Leads disk (fs.searchTurn disk (to83 name))) (d,disk.contents w) p ∧
        onImage disk (fs.findFrom disk (to83 name) 1 p.1) p.2 = some (h,m') ∧
          2 ≤ h.start ∧ Cycles (Leads disk (fs.freeTurn disk)) (h.start,m') := by
  obtain ⟨k,c,w₁,hreach,hend,hlater,hlast⟩ := (findFrom_loop (to83 name)).finish hq hc
  have hq₁ : w₁.Quiet := hlater.quiet_iff.mpr hq
  -- the slot can be found in the last cluster only
  have hhere : ∀ p h m', ReflTransGen (Leads disk (fs.searchTurn disk (to83 name)))
      (d,disk.contents w) p → onImage disk (fs.findFrom disk (to83 name) 1 p.1) p.2 = some (h,m') →
        p = (c,disk.contents w₁) := fun p h m' hp hfound =>
    end_unique leads_unique hp hreach (fun _ => not_leads_of_found hfound) hend
  have himage : Computes disk (fs.findFrom disk (to83 name) 1 c) w₁ _ :=
    byImage_findFrom (to83 name) 1 c w₁
  cases hfind : fs.findFrom disk (to83 name) 1 c w₁ with
  | error e w₂ =>
    refine iff_of_true (settles_bind_error (k := k+1) fun n hn => (hlast n hn).trans hfind) ?_
    rintro ⟨p,h,m',hp,hfound,_⟩
    obtain rfl := hhere p h m' hp hfound
    rcases himage.error hfind with hnone | hfail
    · rw [hnone] at hfound
      cases hfound
    · exact hfail hq₁
  | ok h w₂ =>
    obtain ⟨hfound,hlater₂⟩ := himage.ok hfind
    refine (settles_bind_ok (k := k+1) fun n hn => (hlast n hn).trans hfind).trans
      ((erase_settles h).trans (not_congr ?_))
    constructor
    · exact fun hcycle => ⟨_,h,_,hreach,hfound,hcycle.2⟩
    · rintro ⟨p,h',m',hp,hfound',hcycle⟩
      obtain rfl := hhere p h' m' hp hfound'
      cases hfound.symm.trans hfound'
      exact ⟨hlater₂.quiet_iff.mpr hq₁,hcycle⟩

theorem delete_settles : Settles (fun n => fs.deleteWithin disk n d name) w ↔
      ¬(w.Quiet ∧ (Operation.deleteFileEntry d name).Circles fs disk (disk.contents w)) := by
  by_cases hq : w.Quiet
  · by_cases hc : Cycles (Leads disk (fs.searchTurn disk (to83 name))) (d,disk.contents w)
    · have hendless : Endless Drives.transfers (fun n => fs.deleteWithin disk n d name) w :=
        ((findFrom_loop (to83 name)).endless hq hc).bind
      exact iff_of_false hendless.not_settles fun hno => hno ⟨hq,.inl hc⟩
    · refine (delete_settles_quiet hq hc).trans (not_congr ?_)
      exact ⟨fun hfree => ⟨hq,.inr hfree⟩,fun hcircles => hcircles.2.resolve_left hc⟩
  · refine iff_of_true ?_ fun hcircles => hq hcircles.1
    obtain ⟨n,hn⟩ : Settles (fun n => fs.findFrom disk (to83 name) n d) w :=
      (findFrom_loop (to83 name)).settles_of_failure hq
    cases hfind : fs.findFrom disk (to83 name) n d w with
    | error e w₁ => exact settles_bind_error (k := n) fun m hm => (hn m hm).trans hfind
    | ok h w₁ =>
      have hlater := ((byImage_findFrom (to83 name) n d w).ok hfind).2
      refine (settles_bind_ok (k := n) fun m hm => (hn m hm).trans hfind).mpr ?_
      exact (erase_settles h).mpr fun hcycle => hq (hlater.quiet_iff.mp hcycle.1)

/-- An operation ends if and only if it comes to no cycle, or a transfer is going to fail. -/
theorem terminates_iff (fs : Fat32Fs) (disk : IdeDisk) (w : Drives) (op : Operation) :
    op.Terminates fs disk w ↔ ¬(w.Quiet ∧ op.Circles fs disk (disk.contents w)) := by
  cases op with
  | freeClusterChain c => exact freeFrom_loop.settles_iff
  | lastCluster c => exact lastFrom_loop.settles_bind_iff _
  | createFileEntry d name isDir => exact create_settles
  | deleteFileEntry d name => exact delete_settles
  | _ => exact iff_of_true (settles_const _) fun hcircles => hcircles.2

namespace FatVolume

/-- A full cluster, linked to itself. -/
def looped : Drives := image [(520,toLe 4 2),(2048,List.replicate 512 0x41)]

theorem endless_in_looped :
    ¬(Operation.lastCluster 2).Terminates small.fs small.disk looped ∧
      ¬(Operation.deleteFileEntry 2 [0x42]).Terminates small.fs small.disk looped ∧
        ¬(Operation.createFileEntry 2 [0x42] false).Terminates small.fs small.disk looped := by
  have hq : looped.Quiet := fun _ _ => rfl
  have heval : answer (small.fs.nextCluster small.disk 2) (still (small.disk.contents looped)) = .ok 2 ∧
      answer (small.fs.searchTurn small.disk (to83 [0x42]) 2) (still (small.disk.contents looped)) =
        .ok 2 ∧
      answer (small.fs.takeCluster small.disk) (still (small.disk.contents looped)) = .ok 3 ∧
      answer (small.fs.createTurn small.disk 2) (still (small.disk.contents
        (after (small.fs.takeCluster small.disk) (still (small.disk.contents looped))))) = .ok 2 := by
    decide +kernel
  obtain ⟨hnext,hsearch,htake,hcreate⟩ := heval
  refine ⟨fun hends => ?_,fun hends => ?_,fun hends => ?_⟩
  · exact (lastFrom_loop.settles_bind_iff _).mp hends
      ⟨hq,cycles_of_answer (fun _ => Ends.imp nextCluster_advances fun _ _ h => h.2.1) hnext (by decide)⟩
  · exact delete_settles.mp hends ⟨hq,.inl (cycles_of_answer (fun _ => scanTurn_keeps) hsearch (by decide))⟩
  · refine create_settles.mp hends
      ⟨hq,3,_,?_,cycles_of_answer (fun _ => scanTurn_keeps) hcreate (by decide)⟩
    unfold onImage
    rw [ok_of_answer htake]

end FatVolume

end Zohara.Fat32
