import Nachos.Userprog.Image

/-! What a page comes back with. `Swapout` writes a dirty page to the swap file
but clears its `swapped` flag, so the next `loadPage` builds the page from the
executable again. `step_fate` says what one step can make of a page, `Tracked`
what that leaves of a page that was resident once, along a run. -/

namespace Nachos
open Lib

theorem AddrSpace.pageImage_congr {S S' : AddrSpace} (h : S'.fixed = S.fixed) (v : Nat) :
    S'.pageImage v = S.pageImage v := by
  have hfile : S'.file = S.file := (congrArg AddrSpace.file h :)
  have hnoff : S'.noffH = S.noffH := (congrArg AddrSpace.noffH h :)
  unfold pageImage executableByte
  rw [hfile, hnoff]

/-- A page that is not in memory is not marked as swapped. -/
def Place.Clean (p : Place) : Prop := p.valid = true ∨ p.swapped = false

namespace Kernel

/-- What a step that leaves memory at `mem` can make of a page at place `p`
whose first contents were `image`. -/
inductive Fate (image : List UInt8) (mem : Nat → UInt8) (p : Place) : Option Place → Prop
  | same : Fate image mem p (some p)
  | gone : Fate image mem p none
  | evicted : Fate image mem p (some ⟨-1, false, false⟩)
  | reread {q : Place} (flag : p.swapped = true) (valid : p.valid = true → q.valid = true) :
    Fate image mem p (some q)
  | built {f : Nat} (bytes : frameBytes mem f = image) : Fate image mem p (some ⟨f, true, false⟩)

variable {k k' k1 : Kernel} {n : Next} {e : Event} {s : SpacePtr} {S : AddrSpace} {v f random : Nat}
  {image : List UInt8} {mem : Nat → UInt8} {p q : Place}

theorem Fate.clean (h : Fate image mem p (some q)) (hp : p.Clean) : q.Clean := by
  cases h with
  | same => exact hp
  | evicted => exact .inr rfl
  | reread flag valid =>
    rcases hp with hp | hp
    · exact .inl (valid hp)
    · rw [flag] at hp
      cases hp
  | built => exact .inl rfl

/-- A clean page that comes in is built from the executable. -/
theorem Fate.bytes (h : Fate image mem p (some q)) (hp : p.Clean) (hout : p.valid = false)
    (hin : q.valid = true) (hf : q.frame = f) : frameBytes mem f = image := by
  cases h with
  | same =>
    rw [hout] at hin
    cases hin
  | evicted => cases hin
  | reread flag =>
    rcases hp with hp | hp
    · rw [hout] at hp
      cases hp
    · rw [flag] at hp
      cases hp
  | @built g hb =>
    have hg : (g : Int) = f := hf
    cases Int.ofNat.inj hg
    exact hb

theorem Fate.after_evicted {r : Option Place} (h : Fate image mem ⟨-1, false, false⟩ r) :
    Fate image mem p r := by
  cases h with
  | same => exact .evicted
  | gone => exact .gone
  | evicted => exact .evicted
  | reread flag => cases flag
  | built hb => exact .built hb

/-! ## One step -/

theorem selectPage_place (h : k.selectPage random = .ok (f, k1)) (s : SpacePtr) (v : Nat) :
    k1.frames.place s v = k.frames.place s v ∨
      k1.frames.place s v = some ⟨-1, false, false⟩ := by
  rcases selectPage_frames h with ⟨-, hk1⟩ | ⟨-, s', v', p, -, -, -, hk1⟩
  · exact .inl (by rw [hk1])
  · have hset := (congrFun (congrFun (congrArg FrameTable.place hk1) s) v).trans
      (k.frames.setPlace_place s' s v' v _)
    rw [hset]
    split
    · exact .inr rfl
    · exact .inl rfl

theorem fillPage_fate {s' : SpacePtr} {w : Int} (hf : f < numPhysPages)
    (h : k.fillPage s' w f = .ok k') (hS : k.space s = some S)
    (hp : k.frames.place s v = some p) :
    Fate (S.pageImage v) k'.mainMemory p (k'.frames.place s v) := by
  obtain ⟨S', valid, hS', -, hk', hvalid, hbuild⟩ := fillPage_frames h
  have hset := (congrFun (congrFun (congrArg FrameTable.place hk') s) v).trans
    (k.frames.setPlace_place s' s w.toNat v _)
  rw [hset]
  split
  · rename_i hsv
    obtain ⟨rfl, rfl⟩ := hsv
    cases hS.symm.trans hS'
    obtain ⟨S', hS', hplace⟩ := frames_place.mp hp
    cases hS.symm.trans hS'
    obtain ⟨-, rfl⟩ := AddrSpace.place_eq_some.mp hplace
    cases hflag : S.swapped w.toNat with
    | true => exact .reread rfl fun h => hvalid.mpr (.inr h)
    | false =>
      cases hvalid.mpr (.inl fun hsw => absurd (hflag.symm.trans hsw) (by decide))
      exact .built (AddrSpace.frameBytes_buildPage hf (hbuild hflag))
  · rw [hp]
    exact .same

theorem pageFault_fate {addr : BitVec 32} (h : k.pageFault addr random = .ok k')
    (hS : k.space s = some S) (hp : k.frames.place s v = some p) :
    Fate (S.pageImage v) k'.mainMemory p (k'.frames.place s v) := by
  obtain ⟨s', f, k1, -, hsel, hbranch⟩ := pageFault_cases h
  obtain ⟨hm, hf⟩ := selectPage_memoryOnly hsel
  obtain ⟨S1, hS1, hfixed⟩ := hm.space_of hS
  have hplace := selectPage_place hsel s v
  rw [show (k.raise addr).frames.place s v = some p from hp] at hplace
  rcases hbranch with ⟨-, rfl⟩ | ⟨-, hfill⟩
  · -- FIFO: the page is out of memory until the fault has the lock
    change Fate (S.pageImage v) _ p (k1.frames.place s v)
    rcases hplace with hplace | hplace
    · rw [hplace]
      exact .same
    · rw [hplace]
      exact .evicted
  · rw [← AddrSpace.pageImage_congr hfixed v]
    rcases hplace with hplace | hplace
    · exact fillPage_fate hf hfill hS1 hplace
    · exact (fillPage_fate hf hfill hS1 hplace).after_evicted

theorem load_fate {fire : Bool} (hi : k.Inv) (h : k.load fire = .ok (k', n))
    (hS : k.space s = some S) (hp : k.frames.place s v = some p) :
    Fate (S.pageImage v) k'.mainMemory p (k'.frames.place s v) := by
  obtain ⟨w, f, c, s', k1, hhere, -, hfill, rfl, -⟩ := load_cases h
  have hf : f < numPhysPages := hi.framed_here hhere
  obtain ⟨st, r, l, hV⟩ := k1.lockV_eq f
  rw [hV]
  have hfate := fillPage_fate hf hfill hS hp
  exact hfate

theorem act_fate (hi : k.Inv) (h : k.act e = .ok (k', n)) (hS : k.space s = some S)
    (hp : k.frames.place s v = some p) :
    Fate (S.pageImage v) k'.mainMemory p (k'.frames.place s v) := by
  -- where the page is not concerned
  have hsame {k' : Kernel} (h : k'.frames.place s v = k.frames.place s v) :
      Fate (S.pageImage v) k'.mainMemory p (k'.frames.place s v) := by
    rw [h, hp]
    exact .same
  have hended {r : Registers} {k' : Kernel} (h : { k with registers := r }.terminate = .ok k') :
      Fate (S.pageImage v) k'.mainMemory p (k'.frames.place s v) := by
    obtain ⟨T, hT, -⟩ := hi.running
    obtain ⟨s', hs', -⟩ := hi.procs.space hT
    obtain ⟨_, m, st, -, -, hk⟩ :=
      terminate_eq_ok (k := { k with registers := r }) (live_eq_some hT).2 hs' h
    have hspace : k'.space = Function.update k.space s' none := (congrArg Kernel.space hk :)
    by_cases hs : s = s'
    · have hnone : k'.frames.place s v = none := by
        change (k'.space s).bind _ = none
        rw [hspace, hs, Function.update_self]
        rfl
      rw [hnone]
      exact .gone
    · refine hsame ?_
      change (k'.space s).bind _ = (k.space s).bind _
      rw [hspace, Function.update_of_ne hs]
  cases acts_of_act h with
  | instr _ h1 =>
    exact hsame (congrFun (congrFun (congrArg FrameTable.place (accesses_frames h1)) s) v :)
  | tick _ => exact hsame rfl
  | fault _ _ h1 => exact pageFault_fate h1 hS hp
  | lock h => exact hsame (by rw [lock_frames hi h])
  | load h => exact load_fate hi h hS hp
  | trap _ => exact hsame rfl
  | copy _ h1 => exact hsame (by rw [access_frames h1])
  | @ret result _ =>
    cases result <;> exact hsame rfl
  | exec hc h =>
    obtain ⟨hi', ha'⟩ := hi.back hc
    rcases exec_cases hi' ha' h with ⟨-, rfl, -⟩ | ⟨x, k1, -, hnew, -, rfl⟩
    · exact hsame rfl
    · obtain ⟨_, _, _, -, -, -, -, hk1⟩ := newAddrSpace_eq_ok hnew
      have hne : s ≠ k.nextSpace := by
        rintro rfl
        rw [hi.procs.freshSpace _ (Nat.le_refl _)] at hS
        cases hS
      refine hsame ?_
      change (k1.space s).bind _ = (k.space s).bind _
      have hspace : k1.space = Function.update k.space k.nextSpace _ :=
        (congrArg Kernel.space hk1 :)
      rw [hspace, Function.update_of_ne hne]
  | join hc h =>
    obtain ⟨hi', ha'⟩ := hi.back hc
    rcases join_target hi' ha' h with ⟨-, rfl, -⟩ | ⟨c, -, -, rfl⟩
    · exact hsame rfl
    · exact hsame rfl
  | yield _ => exact hsame rfl
  | exit _ h1 => exact hended (r := k.registers) h1
  | fatal _ h1 => exact hended h1
  | enable _ => exact hsame rfl
  | create hc h1 => exact hsame (by rw [create_frames hi (by rw [hc]; rfl) h1])

theorem step_fate (hi : k.Inv) (h : k.step e = .ok k') (hS : k.space s = some S)
    (hp : k.frames.place s v = some p) :
    Fate (S.pageImage v) k'.mainMemory p (k'.frames.place s v) := by
  obtain ⟨⟨k1, n⟩, hact, h⟩ := bind_eq_ok.mp h
  have hmem : k'.mainMemory = k1.mainMemory := (congrArg Kernel.mainMemory (dispatch_frame h).1 :)
  rw [dispatch_frames h, hmem]
  exact act_fate hi hact hS hp

/-! ## Runs -/

/-- Page `v` of space `s` is in frame `f`. -/
def Resident (k : Kernel) (s : SpacePtr) (v f : Nat) : Prop :=
  ∃ S, k.space s = some S ∧ v < S.numPages ∧ (S.pageTable v).valid = true ∧
    (S.pageTable v).physicalPage = f

/-- Page `v` of space `s` is not in memory. -/
def Missing (k : Kernel) (s : SpacePtr) (v : Nat) : Prop :=
  ∃ S, k.space s = some S ∧ v < S.numPages ∧ (S.pageTable v).valid = false

instance (k : Kernel) (s : SpacePtr) (v f : Nat) : Decidable (k.Resident s v f) :=
  inferInstanceAs (Decidable (∃ S ∈ k.space s, _ ∧ _ ∧ _))

instance (k : Kernel) (s : SpacePtr) (v : Nat) : Decidable (k.Missing s v) :=
  inferInstanceAs (Decidable (∃ S ∈ k.space s, _ ∧ _))

theorem Resident.place (h : k.Resident s v f) :
    ∃ p, k.frames.place s v = some p ∧ p.valid = true ∧ p.frame = f := by
  obtain ⟨S, hS, hv, hvalid, hphys⟩ := h
  exact ⟨_, frames_place.mpr ⟨S, hS, AddrSpace.place_eq_some.mpr ⟨hv, rfl⟩⟩, hvalid, hphys⟩

/-- What stays true of a page that has been resident: as long as its space `S`
lives the page is clean, and no other space takes its place afterwards. -/
structure Tracked (S : AddrSpace) (s : SpacePtr) (v : Nat) (k : Kernel) : Prop where
  inv : k.Inv
  old : s < k.nextSpace
  fixed : ∀ {S'}, k.space s = some S' → S'.fixed = S.fixed
  clean : ∀ {p}, k.frames.place s v = some p → p.Clean

theorem Tracked.step (ht : Tracked S s v k) (h : k.step e = .ok k') : Tracked S s v k' := by
  have hspaces := step_spaceStep ht.inv h
  have hold : s < k'.nextSpace := by
    cases hspaces with
    | paged _ _ _ next => exact next ▸ ht.old
    | built _ _ _ _ next => exact next ▸ Nat.lt_succ_of_lt ht.old
    | deleted _ _ _ _ _ next => exact next ▸ ht.old
  -- a space that is there was there before, and is the same
  have hback {S' : AddrSpace} (hS' : k'.space s = some S') :
      ∃ S0, k.space s = some S0 ∧ S'.fixed = S0.fixed := by
    cases hspaces with
    | paged _ fixed =>
      have hf := fixed s
      rw [hS'] at hf
      obtain ⟨S0, hS0, he⟩ := Option.map_eq_some_iff.mp hf.symm
      exact ⟨S0, hS0, he.symm⟩
    | built _ _ _ space =>
      rw [space, Function.update_of_ne (Nat.ne_of_lt ht.old)] at hS'
      exact ⟨S', hS', rfl⟩
    | deleted _ _ _ space =>
      rw [space, Function.update_apply] at hS'
      split at hS'
      · cases hS'
      · exact ⟨S', hS', rfl⟩
  refine ⟨step_inv ht.inv h, hold, fun hS' => ?_, fun {q} hq => ?_⟩
  · obtain ⟨S0, hS0, he⟩ := hback hS'
    exact he.trans (ht.fixed hS0)
  · obtain ⟨S', hS', hplace⟩ := frames_place.mp hq
    obtain ⟨S0, hS0, he⟩ := hback hS'
    have hpages : S'.numPages = S0.numPages := (congrArg AddrSpace.numPages he :)
    have hp : k.frames.place s v = some _ := frames_place.mpr ⟨S0, hS0,
      AddrSpace.place_eq_some.mpr ⟨hpages ▸ (AddrSpace.place_eq_some.mp hplace).1, rfl⟩⟩
    have hfate := step_fate ht.inv h hS0 hp
    rw [hq] at hfate
    exact hfate.clean (ht.clean hp)

theorem Resident.tracked (hi : k.Inv) (h : k.Resident s v f) (hS : k.space s = some S) :
    Tracked S s v k := by
  obtain ⟨p, hp, hvalid, -⟩ := h.place
  refine ⟨hi, ?_, fun hS' => ?_, fun hq => ?_⟩
  · by_contra hlt
    rw [hi.procs.freshSpace s (Nat.le_of_not_lt hlt)] at hS
    cases hS
  · cases hS.symm.trans hS'
    rfl
  · cases hp.symm.trans hq
    exact .inl hvalid

/-- A page that was resident with contents `B` and is missing now comes back
with `B` exactly if `B` is what the executable gives for it. -/
theorem reload_iff {es : List Event} {k2 : Kernel} {f' : Nat} (hk : Reachable k)
    (hS : k.space s = some S) (hres : k.Resident s v f) (hrun : Run step k es k1)
    (hmiss : k1.Missing s v) (hstep : k1.step e = .ok k2) (hres' : k2.Resident s v f') :
    frameBytes k2.mainMemory f' = frameBytes k.mainMemory f ↔
      frameBytes k.mainMemory f = S.pageImage v := by
  have ht : Tracked S s v k1 :=
    hrun.inv (fun _ _ _ ht h => ht.step h) (hres.tracked hk.inv hS)
  obtain ⟨S1, hS1, hv, hout⟩ := hmiss
  have hp : k1.frames.place s v = some _ :=
    frames_place.mpr ⟨S1, hS1, AddrSpace.place_eq_some.mpr ⟨hv, rfl⟩⟩
  obtain ⟨q, hq, hvalid, hframe⟩ := hres'.place
  have hfate := step_fate ht.inv hstep hS1 hp
  rw [hq] at hfate
  have hbytes := hfate.bytes (ht.clean hp) hout hvalid hframe
  rw [hbytes, AddrSpace.pageImage_congr (ht.fixed hS1), eq_comm]

/-- With memory full, page 32 takes the frame of page 5, which then comes back
in the frame of page 1. -/
theorem reload_sample : ∃ (k0 k k1 k2 : Kernel), boot (.sample 2) = .ok k0 ∧
    Run step k0 (fillSample 0) k ∧ k.Resident 0 5 5 ∧
    Run step k [.fault 8192 5] k1 ∧ k1.Missing 0 5 ∧ k1.step (.fault 1280 1) = .ok k2 ∧
    k2.Resident 0 5 1 ∧ frameBytes k2.mainMemory 1 = frameBytes k.mainMemory 5 := by
  have hdemo : (Config.sample 2).reaches (fillSample 0) (fun k =>
      (k.space 0).any fun (S : AddrSpace) =>
        decide (k.Resident 0 5 5 ∧ frameBytes k.mainMemory 5 = S.pageImage 5) &&
        continues step k [.fault 8192 5] fun k1 => decide (k1.Missing 0 5) &&
          continues step k1 [.fault 1280 1] fun k2 => decide (k2.Resident 0 5 1)) = true := by
    decide +kernel
  obtain ⟨k0, k, hboot, hrun, hp⟩ := Config.reaches_iff.mp hdemo
  obtain ⟨S, hS, hp⟩ := (Option.any_eq_true _ _).mp hp
  obtain ⟨hk, hp⟩ := Bool.and_eq_true_iff.mp hp
  obtain ⟨hres, himage⟩ := of_decide_eq_true hk
  obtain ⟨k1, hrun1, hp⟩ := continues_iff.mp hp
  obtain ⟨hmiss, hp⟩ := Bool.and_eq_true_iff.mp hp
  obtain ⟨k2, hrun2, hp⟩ := continues_iff.mp hp
  have hstep := run_singleton.mp hrun2
  have hiff := reload_iff ⟨_, _, k0, hboot, hrun⟩ hS hres hrun1 (of_decide_eq_true hmiss) hstep
    (of_decide_eq_true hp)
  exact ⟨k0, k, k1, k2, hboot, hrun, hres, hrun1, of_decide_eq_true hmiss, hstep,
    of_decide_eq_true hp, hiff.mpr himage⟩

/-- With memory full the program stores 55 at address 100; page 32 then takes
the frame of page 0, which comes back in the frame of page 1 as it was first
loaded. -/
theorem store_lost : ∃ (k0 k k1 k2 : Kernel), boot (.sample 2) = .ok k0 ∧
    Run step k0 (fillSample 0 ++ [.instr [.write 100 .byte 55] fun _ => 0]) k ∧
    k.Resident 0 0 0 ∧ k.mainMemory 100 = 55 ∧
    Run step k [.fault 8192 0] k1 ∧ k1.Missing 0 0 ∧ k1.step (.fault 0 1) = .ok k2 ∧
    k2.Resident 0 0 1 ∧ frameBytes k2.mainMemory 1 ≠ frameBytes k.mainMemory 0 := by
  have hdemo : (Config.sample 2).reaches
      (fillSample 0 ++ [.instr [.write 100 .byte 55] fun _ => 0]) (fun k =>
        decide (k.Resident 0 0 0 ∧ k.mainMemory 100 = 55) &&
        continues step k [.fault 8192 0] fun k1 => decide (k1.Missing 0 0) &&
          continues step k1 [.fault 0 1] fun k2 => decide (k2.Resident 0 0 1 ∧
            frameBytes k2.mainMemory 1 ≠ frameBytes k.mainMemory 0)) = true := by
    decide +kernel
  obtain ⟨k0, k, hboot, hrun, hp⟩ := Config.reaches_iff.mp hdemo
  obtain ⟨hk, hp⟩ := Bool.and_eq_true_iff.mp hp
  obtain ⟨hres, hstored⟩ := of_decide_eq_true hk
  obtain ⟨k1, hrun1, hp⟩ := continues_iff.mp hp
  obtain ⟨hmiss, hp⟩ := Bool.and_eq_true_iff.mp hp
  obtain ⟨k2, hrun2, hp⟩ := continues_iff.mp hp
  obtain ⟨hres', hne⟩ := of_decide_eq_true hp
  have hstep := run_singleton.mp hrun2
  exact ⟨k0, k, k1, k2, hboot, hrun, hres, hstored, hrun1, of_decide_eq_true hmiss, hstep, hres',
    hne⟩

end Kernel
end Nachos
