import Nachos.Userprog.Effects

/-! Whose swap file is whose. The constructor names the swap file of a new space
after the thread that runs it, not after the thread that will own the space. The
first process is its own creator; any process it starts is created under the
same ID, so the two spaces share one file. -/

namespace Nachos
open Lib
namespace Kernel

/-- Live spaces have swap files of different names, and none of these files has
been removed. -/
structure SwapsPrivate (k : Kernel) : Prop where
  names : ∀ {s s' S S'}, k.space s = some S → k.space s' = some S' → s ≠ s' →
    S.swapfilename ≠ S'.swapfilename
  present : ∀ {s S}, k.space s = some S → k.hostDir S.swapfilename = some S.swapFile

/-- The step truncates no swap file of a live space. -/
def KeepsSwaps (k : Kernel) (e : Event) : Prop :=
  ∀ k', k.step e = .ok k' → ∀ s S, k.space s = some S →
    (k.hostData S.swapFile).length ≤ (k'.hostData S.swapFile).length

/-- The event is not an `SC_Exec` of a file that opens. -/
def NoNewSpace (k : Kernel) (e : Event) : Prop :=
  ∀ filename junk fire, e = .exec filename junk fire → k.exe filename = none

/-- Only the first space has ever been built. -/
structure Solo (k : Kernel) : Prop where
  inv : k.Inv
  nextSpace : k.nextSpace = 1
  threadID : k.threadID = 1
  first : ∀ {S}, k.space 0 = some S →
    S.swapfilename = swapName 0 ∧ k.hostDir (swapName 0) = some S.swapFile

variable {k k' : Kernel} {e : Event}

theorem Solo.eq_zero (h : k.Solo) {s : SpacePtr} {S : AddrSpace} (hS : k.space s = some S) :
    s = 0 := by
  by_contra hne
  have hle : k.nextSpace ≤ s := by rw [h.nextSpace]; exact Nat.one_le_iff_ne_zero.mpr hne
  rw [h.inv.procs.freshSpace s hle] at hS
  cases hS

theorem Solo.swapsPrivate (h : k.Solo) : k.SwapsPrivate where
  names hS hS' hne := absurd ((h.eq_zero hS).trans (h.eq_zero hS').symm) hne
  present hS := by
    have h0 := h.eq_zero hS
    subst h0
    obtain ⟨hname, hdir⟩ := h.first hS
    rw [hname]
    exact hdir

theorem Solo.step (h : k.Solo) (hG : k.NoNewSpace e) (hs : k.step e = .ok k') : k'.Solo := by
  have hi' := step_inv h.inv hs
  cases step_spaceStep h.inv hs with
  | paged _ hfixed hdir hnext hids =>
    refine ⟨hi', hnext.trans h.nextSpace, hids.trans h.threadID, fun {S'} hS' => ?_⟩
    have hf := hfixed 0
    rw [hS'] at hf
    obtain ⟨S, hS, he⟩ := Option.map_eq_some_iff.mp hf.symm
    obtain ⟨hname, hfile⟩ := h.first hS
    have hname' : S.swapfilename = S'.swapfilename := (congrArg AddrSpace.swapfilename he :)
    have hfile' : S.swapFile = S'.swapFile := (congrArg AddrSpace.swapFile he :)
    rw [← hname', ← hfile', hdir]
    exact ⟨hname, hfile⟩
  | built hopens => rw [hG _ _ _ rfl] at hopens; cases hopens
  | deleted _ _ hS hspace _ hnext hids =>
    refine ⟨hi', hnext.trans h.nextSpace, hids.trans h.threadID, fun {S'} hS' => ?_⟩
    have h0 := h.eq_zero hS
    subst h0
    rw [hspace, Function.update_self] at hS'
    cases hS'

theorem Solo.keepsSwaps (h : k.Solo) (hG : k.NoNewSpace e) : k.KeepsSwaps e := by
  intro k' hs s S hS
  cases step_spaceStep h.inv hs with
  | paged _ _ _ _ _ hgrows => exact hgrows _
  | built hopens => rw [hG _ _ _ rfl] at hopens; cases hopens
  | deleted _ _ _ _ _ _ _ hdata => rw [hdata]

/-- The first `SC_Exec` that opens a file builds a second space under the name
of the first. -/
theorem Solo.broken (h : k.Solo) (hs : k.step e = .ok k') (hG : ¬ k.NoNewSpace e) :
    ¬ k'.SwapsPrivate := by
  intro hP
  unfold NoNewSpace at hG
  push Not at hG
  obtain ⟨filename, junk, fire, rfl, hne⟩ := hG
  cases step_spaceStep h.inv hs with
  | paged hexec => exact hne (hexec _ _ _ rfl)
  | deleted he => exact he
  | @built _ _ _ x T numPages i _ hopens hT _ hspace =>
    obtain ⟨s, -, hsome⟩ := h.inv.procs.space hT
    obtain ⟨S, hS⟩ := Option.isSome_iff_exists.mp hsome
    have h0 := h.eq_zero hS
    subst h0
    have hid : T.ID = 0 := by
      have := h.inv.procs.idLt hT
      rw [h.threadID] at this
      omega
    rw [h.nextSpace] at hspace
    have hold : k'.space 0 = some S := by
      rw [hspace, Function.update_of_ne Nat.zero_ne_one]
      exact hS
    have hnew : k'.space 1 = some (.new x numPages junk i (swapName T.ID)) := by
      rw [hspace, Function.update_self]
    refine hP.names hold hnew Nat.zero_ne_one ?_
    rw [(h.first hS).1, hid]
    rfl

theorem boot_solo {c : Config} (h : boot c = .ok k) : k.Solo := by
  have hi := boot_inv h
  obtain ⟨x, numPages, -, -, hk⟩ := boot_eq_ok h
  refine ⟨hi, by rw [hk], by rw [hk]; rfl, fun {S} hS => ?_⟩
  have hS0 : S = .new x numPages c.junk 0 (swapName 0) := by
    rw [hk] at hS
    simp only [Function.update_self] at hS
    exact (Option.some.inj hS).symm
  subst hS0
  refine ⟨rfl, ?_⟩
  rw [hk]
  simp only [Function.update_self]
  rfl

/-- Along a run from boot the swap files of the live spaces are private, none of
them is removed and none truncated, if and only if the run never executes a file
that opens. -/
theorem swaps_private_iff {c : Config} {k0 : Kernel} {es : List Event} (hboot : boot c = .ok k0)
    (hrun : Run step k0 es k) :
    Always step SwapsPrivate k0 es ∧ Guarded step KeepsSwaps k0 es ↔
      Guarded step NoNewSpace k0 es := by
  constructor
  · exact fun h => h.1.guarded (fun s e s' hI hG hs => Solo.step hI hG hs)
      (fun s e s' hI _ hs hG => Solo.broken hI hs hG) hrun (boot_solo hboot)
  · intro h
    have hstep (s : Kernel) (e : Event) (s' : Kernel) (hI : s.Solo) (hG : s.NoNewSpace e)
        (hs : s.step e = .ok s') : s'.Solo := hI.step hG hs
    refine ⟨(h.always hstep (boot_solo hboot)).mono fun s hI => hI.swapsPrivate, ?_⟩
    exact h.strengthen hstep (fun s e hI hG => hI.keepsSwaps hG) (boot_solo hboot)

/-- The first process loads its code, and tries to execute a file that is not there. -/
def refusedSample : List Event := faultSample 0 ++ [.trap, .exec [98] (fun _ => false) false]

theorem swaps_private_sample : ∃ k0 k : Kernel, boot (Config.sample 1) = .ok k0 ∧
    Run step k0 refusedSample k ∧ Always step SwapsPrivate k0 refusedSample ∧
    Guarded step KeepsSwaps k0 refusedSample := by
  have hdemo : (Config.sample 1).boots (fun k0 =>
      guards step (fun k _ => decide (k.exe [98] = none)) k0 refusedSample &&
      continues step k0 refusedSample fun _ => true) = true := by decide +kernel
  obtain ⟨k0, hboot, hp⟩ := Config.boots_iff.mp hdemo
  obtain ⟨hguards, hcont⟩ := Bool.and_eq_true_iff.mp hp
  obtain ⟨k, hrun, -⟩ := continues_iff.mp hcont
  have hnone : Guarded step NoNewSpace k0 refusedSample := by
    have hevents : Guarded step (fun _ e => e ∈ refusedSample) k0 refusedSample :=
      .of_events fun _ he _ => he
    refine ((guarded_of_guards hguards).and hevents).mono ?_
    rintro k e ⟨hexe, he⟩ filename junk fire rfl
    obtain ⟨rfl, -⟩ : filename = [98] ∧ _ := by simpa [refusedSample, faultSample] using he
    exact of_decide_eq_true hexe
  obtain ⟨hprivate, hkeeps⟩ := (swaps_private_iff hboot hrun).mpr hnone
  exact ⟨k0, k, hboot, hrun, hprivate, hkeeps⟩

/-- The first process executes a file: both spaces swap to `0.swap`. -/
theorem swap_file_shared : ∃ (k0 k : Kernel), boot (Config.sample 1) = .ok k0 ∧
    Run step k0 execSample k ∧ ¬ k.SwapsPrivate := by
  have hdemo : (Config.sample 1).reaches execSample (fun k =>
      decide ((k.space 0).map AddrSpace.swapfilename = some (swapName 0)) &&
      decide ((k.space 1).map AddrSpace.swapfilename = some (swapName 0))) = true := by
    decide +kernel
  obtain ⟨k0, k, hboot, hrun, hp⟩ := Config.reaches_iff.mp hdemo
  simp only [Bool.and_eq_true, decide_eq_true_eq] at hp
  obtain ⟨S, hS, hname⟩ := Option.map_eq_some_iff.mp hp.1
  obtain ⟨S', hS', hname'⟩ := Option.map_eq_some_iff.mp hp.2
  exact ⟨k0, k, hboot, hrun, fun hP =>
    hP.names hS hS' Nat.zero_ne_one (hname.trans hname'.symm)⟩

end Kernel
end Nachos
