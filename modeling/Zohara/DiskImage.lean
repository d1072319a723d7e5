import Zohara.IdeDisk

/-!
# Images of a disk

As long as no transfer fails, what an action does with a disk is determined by the contents of the
drive. The run on an image is the run from a state with these contents in which no transfer fails;
its value is the answer and the new contents, and there is none if the action fails. An action that
is put together from transfers of one disk does from every state what it does on the image, unless
a transfer fails.
-/
namespace Zohara.IdeDisk
open ByteMemory FallibleState

def IdeDisk.contents (disk : IdeDisk) (w : Drives) : Memory := w.bytes disk.drive

/-- No transfer from now on fails. -/
def Drives.Quiet (w : Drives) : Prop := ∀ k, w.transfers ≤ k → w.fails k = none

/-- A state after transfers that did not fail. -/
structure Later (w w' : Drives) : Prop where
  fails : w'.fails = w.fails
  le : w.transfers ≤ w'.transfers
  passed : ∀ k, w.transfers ≤ k → k < w'.transfers → w.fails k = none

section
variable {w w' w'' : Drives}

theorem Later.refl : Later w w := ⟨rfl,le_rfl,fun _ hk hlt => absurd hlt hk.not_gt⟩

theorem Later.trans (h : Later w w') (h' : Later w' w'') : Later w w'' where
  fails := h'.fails.trans h.fails
  le := h.le.trans h'.le
  passed := by
    intro k hk hlt
    rcases Nat.lt_or_ge k w'.transfers with hbefore | hafter
    · exact h.passed k hk hbefore
    · rw [← h.fails]
      exact h'.passed k hafter hlt

theorem Later.quiet_iff (h : Later w w') : w'.Quiet ↔ w.Quiet := by
  unfold Drives.Quiet
  rw [h.fails]
  constructor
  · intro hq k hk
    rcases Nat.lt_or_ge k w'.transfers with hbefore | hafter
    · exact h.passed k hk hbefore
    · exact hq k hafter
  · exact fun hq k hk => hq k (h.le.trans hk)

end

/-- A state with the contents in which no transfer fails. -/
def still (m : Memory) : Drives := ⟨fun _ => m,fun _ => none,0⟩

variable {disk : IdeDisk} {w : Drives} {α β : Type} {x : Action Drives α} {f : α → Action Drives β}
  {m : Memory}

variable (disk) in
/-- The run on an image. -/
def onImage (x : Action Drives α) (m : Memory) : Option (α × Memory) :=
  match x (still m) with
  | .ok a w => some (a,disk.contents w)
  | .error _ _ => none

variable (disk) in
/-- From `w` the action returns what the value says, or it fails, because there is no value or
because of a transfer. -/
def Computes (x : Action Drives α) (w : Drives) (o : Option (α × Memory)) : Prop :=
  Ends x w (fun a w' => o = some (a,disk.contents w') ∧ Later w w') fun _ _ => o = none ∨ ¬w.Quiet

variable (disk) in
/-- The action does what it does on the image. -/
def ByImage (x : Action Drives α) : Prop := ∀ w, Computes disk x w (onImage disk x (disk.contents w))

theorem still_quiet (m : Memory) : (still m).Quiet := fun _ _ => rfl

theorem Computes.onImage_eq {o : Option (α × Memory)} (h : Computes disk x (still m) o) :
    onImage disk x m = o := by
  unfold onImage
  cases hx : x (still m) with
  | ok a w => exact (h.ok hx).1.symm
  | error e w =>
    rcases h.error hx with hnone | hfail
    · exact hnone.symm
    · exact absurd (still_quiet m) hfail

theorem Ends.onImage {Q : α → Memory → Prop} {E : Fault → Drives → Prop} {p : α × Memory}
    (h : Ends x (still m) (fun a w => Q a (disk.contents w)) E) (hp : onImage disk x m = some p) :
    Q p.1 p.2 := by
  unfold IdeDisk.onImage at hp
  cases hx : x (still m) with
  | ok a w =>
    rw [hx] at hp
    cases hp
    exact h.ok hx
  | error e w =>
    rw [hx] at hp
    cases hp

theorem byImage_of_computes {g : Memory → Option (α × Memory)}
    (h : ∀ w, Computes disk x w (g (disk.contents w))) : ByImage disk x := by
  intro w
  rw [(h (still (disk.contents w))).onImage_eq]
  exact h w

theorem Computes.bind {o : Option (α × Memory)} {g : α → Memory → Option (β × Memory)}
    (h : Computes disk x w o) (hf : ∀ a w', Computes disk (f a) w' (g a (disk.contents w'))) :
    Computes disk (x >>= f) w (o.bind fun p => g p.1 p.2) := by
  refine Ends.bind (Ends.fails h ?_) ?_
  · rintro _ _ (hnone | hfail)
    · rw [hnone]
      exact .inl rfl
    · exact .inr hfail
  · rintro a w' ⟨ho,hlater⟩
    rw [ho]
    refine Ends.mono (hf a w') ?_ ?_
    · rintro b w'' ⟨hb,hlater'⟩
      exact ⟨hb,hlater.trans hlater'⟩
    · exact fun _ _ he => he.imp_right fun hfail hq => hfail (hlater.quiet_iff.mpr hq)

theorem ByImage.pure (a : α) : ByImage disk (Pure.pure a : Action Drives α) := by
  refine byImage_of_computes (g := fun m => some (a,m)) fun w => ?_
  exact ends_pure ⟨rfl,.refl⟩

theorem ByImage.throw (e : Fault) : ByImage disk (MonadExcept.throw e : Action Drives α) := by
  refine byImage_of_computes (g := fun _ => none) fun w => ?_
  exact ends_throw (.inl rfl)

theorem ByImage.bind (hx : ByImage disk x) (hf : ∀ a, ByImage disk (f a)) :
    ByImage disk (x >>= f) :=
  byImage_of_computes (g := fun m => (onImage disk x m).bind fun p => onImage disk (f p.1) p.2)
    fun w => (hx w).bind fun a => hf a

/-! ## Transfers -/

theorem moved_later (h : w.fails w.transfers = none) : Later w (w.moved (w.transfers+1)) where
  fails := rfl
  le := Nat.le_succ _
  passed := by
    intro k hk hlt
    have hlt : k < w.transfers+1 := hlt
    rwa [show k = w.transfers by omega]

theorem transfer_passes : Ends transfer w
    (fun _ w' => w' = w.moved (w.transfers+1) ∧ w.fails w.transfers = none) fun _ _ => ¬w.Quiet := by
  unfold Ends transfer
  cases hf : w.fails w.transfers with
  | none => exact ⟨rfl,rfl⟩
  | some msg =>
    intro hq
    rw [hq _ le_rfl] at hf
    cases hf

theorem readSector_computes (lba : ℕ) : Computes disk (disk.readSector lba) w
    (if disk.totalSectors ≤ lba then none
      else some (read (disk.contents w) (sectorAddr lba) sectorSize,disk.contents w)) := by
  unfold IdeDisk.readSector
  by_cases hlba : disk.totalSectors ≤ lba
  · rw [if_pos hlba, if_pos hlba]
    exact ends_throw (.inl rfl)
  · rw [if_neg hlba, if_neg hlba]
    refine Ends.bind (Ends.fails transfer_passes fun _ _ hfail => .inr hfail) ?_
    rintro _ w' ⟨rfl,hpass⟩
    exact ends_get (ends_pure ⟨rfl,moved_later hpass⟩)

theorem writeSector_computes (lba : ℕ) (buf : List UInt8) : Computes disk (disk.writeSector lba buf) w
    (if disk.totalSectors ≤ lba then none
      else some ((),write (disk.contents w) (sectorAddr lba) buf)) := by
  unfold IdeDisk.writeSector
  by_cases hlba : disk.totalSectors ≤ lba
  · rw [if_pos hlba, if_pos hlba]
    exact ends_throw (.inl rfl)
  · rw [if_neg hlba, if_neg hlba]
    refine Ends.bind (Ends.fails transfer_passes fun _ _ hfail => .inr hfail) ?_
    rintro _ w' ⟨rfl,hpass⟩
    refine ends_modify _ ⟨congrArg (fun m => some ((),m)) ?_,
      ⟨rfl,Nat.le_succ _,(moved_later hpass).passed⟩⟩
    change _ = Function.update w.bytes disk.drive _ disk.drive
    rw [Function.update_self]
    rfl

theorem byImage_readSector (lba : ℕ) : ByImage disk (disk.readSector lba) :=
  byImage_of_computes (g := fun m => if disk.totalSectors ≤ lba then none
    else some (read m (sectorAddr lba) sectorSize,m)) fun _ => readSector_computes lba

theorem byImage_writeSector (lba : ℕ) (buf : List UInt8) : ByImage disk (disk.writeSector lba buf) :=
  byImage_of_computes (g := fun m => if disk.totalSectors ≤ lba then none
    else some ((),write m (sectorAddr lba) buf)) fun _ => writeSector_computes lba buf

theorem readSector_advances (lba : ℕ) : Ends (disk.readSector lba) w
    (fun bs w' => bs.length = sectorSize ∧ disk.contents w' = disk.contents w ∧
      w.transfers < w'.transfers) fun _ _ => True := by
  unfold IdeDisk.readSector
  split_ifs with hlba
  · exact ends_throw trivial
  · refine Ends.bind (Ends.fails transfer_passes fun _ _ _ => trivial) ?_
    rintro _ w' ⟨rfl,_⟩
    exact ends_get (ends_pure ⟨length_read _ _ _,rfl,Nat.lt_succ_self _⟩)

end Zohara.IdeDisk
