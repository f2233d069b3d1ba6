import Nachos.Userprog.FrameSteps

/-! Page faults under preemption. Between choosing a frame and mapping it a
fault can lose the CPU, in the page lock; in the meantime its frame is on the
FIFO list like any other. `victim_found_iff` says exactly when that hurts: a
fault that needs a victim finds one unless the front of the list is a frame that
such a suspended fault has in hand. -/

namespace Nachos
open Lib

namespace Kernel

/-- A suspended fault of a live thread has chosen frame `f`. -/
def InFlight (k : Kernel) (f : Nat) : Prop :=
  ∃ t T w, k.live t = some T ∧ (k.cont t).flight = some (w, f)

/-- `ipt[f]->space->Swapout(f)` finds its page: `ipt[f]` is a live thread, and
its space has an entry mapped to `f`. -/
def VictimFound (k : Kernel) (f : Nat) : Prop :=
  ∃ t T s S v, k.ipt f = some t ∧ k.live t = some T ∧ T.space = some s ∧
    k.space s = some S ∧ S.pageOf f = some v

/-- No frame is mapped by valid entries of two live pages. -/
def NoSharedFrame (k : Kernel) : Prop :=
  ∀ s s' S S' v v', k.space s = some S → k.space s' = some S' → v < S.numPages →
    v' < S'.numPages → (S.pageTable v).valid = true → (S'.pageTable v').valid = true →
    (S.pageTable v).physicalPage = (S'.pageTable v').physicalPage → s = s' ∧ v = v'

variable {k k' : Kernel} {e : Event} {f : Nat} {es : List Event}

theorem inFlight_iff : k.InFlight f ↔ ∃ t, k.frames.Holds f (.fault t) := by
  constructor
  · intro ⟨t, T, w, hT, hw⟩
    exact ⟨t, w, frames_hand.mpr ⟨⟨T, hT⟩, hw⟩⟩
  · intro ⟨t, w, hw⟩
    obtain ⟨⟨T, hT⟩, hw⟩ := frames_hand.mp hw
    exact ⟨t, T, w, hT, hw⟩

/-! ## The victim lookup -/

theorem Framed.page_unique {s s' : SpacePtr} {v v' : Nat} {p p' : Place} (hk : k.Framed)
    (hp : k.frames.place s v = some p) (hpf : p.frame = f)
    (hp' : k.frames.place s' v' = some p') (hpf' : p'.frame = f) : s = s' ∧ v = v' := by
  have hheld : k.frames.Holds f (.page s v) := ⟨p, hp, hpf⟩
  have hheld' : k.frames.Holds f (.page s' v') := ⟨p', hp', hpf'⟩
  exact Holder.page.inj (hk.frames.own.unique hheld hheld')

theorem Framed.noSharedFrame (hk : k.Framed) : k.NoSharedFrame := by
  intro s s' S S' v v' hS hS' hv hv' hval hval' hsame
  have hp := frames_place.mpr ⟨S, hS, AddrSpace.place_eq_some.mpr ⟨hv, rfl⟩⟩
  have hp' := frames_place.mpr ⟨S', hS', AddrSpace.place_eq_some.mpr ⟨hv', rfl⟩⟩
  rcases hk.frames.places hp with ho | ⟨g, hg⟩
  · exact absurd (hval.symm.trans ho.2) (by simp)
  · exact hk.page_unique hp hg.1 hp' (hsame.symm.trans hg.1)

/-- A marked frame that is not in flight is a page's. -/
theorem Framed.victimFound (hk : k.Framed) (hm : k.memMap f = true) (hf : ¬ k.InFlight f) :
    k.VictimFound f := by
  obtain ⟨h, hh⟩ := (hk.frames.own.marked_iff f).mp hm
  cases h with
  | fault t => exact absurd (inFlight_iff.mpr ⟨t, hh⟩) hf
  | page s v =>
    obtain ⟨p, hp, hpf⟩ := hh
    obtain ⟨t, hi, hh⟩ := hk.frames.owner hp (hk.frames.in_of_frame hp hpf)
    obtain ⟨T, hT, hs⟩ := frames_home.mp hh
    obtain ⟨S, hS, hp⟩ := frames_place.mp hp
    obtain ⟨hv, rfl⟩ := AddrSpace.place_eq_some.mp hp
    obtain ⟨v', hv'⟩ := AddrSpace.pageOf_isSome hv hpf
    exact ⟨t, T, s, S, v', hi, hT, hs, hS, hv'⟩

/-- A frame that the lookup finds a page for is not in flight. -/
theorem Framed.not_inFlight {s : SpacePtr} {v : Nat} {p : Place} (hk : k.Framed)
    (hp : k.frames.place s v = some p) (hpf : p.frame = f) : ¬ k.InFlight f := by
  intro hf
  obtain ⟨t, ht⟩ := inFlight_iff.mp hf
  cases hk.frames.own.unique (h := .page s v) ⟨p, hp, hpf⟩ ht

/-- With the lookup, the choice of the frame succeeds. -/
theorem selectPage_of_victim {random : Nat} {k1 : Kernel} (hfull : k.find = none)
    (hv : k.victim random = .ok (f, k1)) (hf : f < numPhysPages) (hfound : k.VictimFound f) :
    ∃ r, k.selectPage random = .ok r := by
  obtain ⟨t, T, s, S, v, hi, hT, hs, hS, hpage⟩ := hfound
  have hm := victim_memoryOnly hv
  have hsame : k1.ipt = k.ipt ∧ k1.space = k.space := by
    rcases victim_cases hv with ⟨-, -, rfl⟩ | ⟨-, -, rfl⟩
    · exact ⟨rfl, rfl⟩
    · exact ⟨rfl, rfl⟩
  have howner : k1.owner f = .ok s := by
    have hsp : k1.spaceOf t = some s := by
      unfold spaceOf
      rw [show k1.thread = k.thread from (congrArg Kernel.thread hm.rest :)]
      exact (spaceOf_of_live hT).trans hs
    unfold owner
    rw [if_pos hf, hsame.1, hi, Option.bind_some, hsp]
  obtain ⟨k2, hout⟩ : ∃ k2, k1.swapout s f = .ok k2 := by
    unfold swapout
    rw [hsame.2, hS]
    dsimp only
    rw [hpage]
    exact ⟨_, rfl⟩
  refine ⟨(f, k2), ?_⟩
  unfold selectPage
  rw [hfull]
  exact bind_eq_ok.mpr ⟨_, hv, bind_eq_ok.mpr ⟨s, howner, bind_eq_ok.mpr ⟨k2, hout, rfl⟩⟩⟩

theorem marked_of_full (hfull : k.find = none) (hf : f < numPhysPages) : k.memMap f = true := by
  have := List.find?_eq_none.mp hfull f (List.mem_range.mpr hf)
  simpa using this

/-- The front of the list is a frame in use once all frames are. -/
theorem Framed.front_lt (hk : k.Framed) (hfifo : k.swapChoice = 1) (hfull : k.find = none) :
    k.pageList.headD 0 < numPhysPages := by
  have hmem : 0 ∈ k.pageList :=
    hk.frames.listed (decide_eq_true hfifo) (marked_of_full hfull (by decide))
  cases hl : k.pageList with
  | nil => rw [hl] at hmem; cases hmem
  | cons x rest =>
    have hx : x ∈ k.frames.pageList := by
      change x ∈ k.pageList
      rw [hl]
      exact List.mem_cons_self
    exact hk.frames.listRange hx

/-! ## Runs -/

theorem Framed.run {k0 : Kernel} (h0 : k0.Framed) (hrun : Run Kernel.step k0 es k)
    (hg : Guarded Kernel.step LoadsWhole k0 es) : k.Framed :=
  hrun.guarded_inv (fun _ _ _ hk hw hs => hk.step hw hs) hg h0

theorem boot_swapChoice {c : Config} (hboot : boot c = .ok k) : k.swapChoice = c.swapChoice := by
  obtain ⟨x, numPages, -, -, hk⟩ := boot_eq_ok hboot
  rw [hk]
  rfl

theorem run_swapChoice {c : Config} {k0 : Kernel} (hboot : boot c = .ok k0)
    (hrun : Run step k0 es k) : k.swapChoice = c.swapChoice := by
  refine (hrun.inv (I := fun k => k.Inv ∧ k.swapChoice = c.swapChoice) ?_
    ⟨boot_inv hboot, boot_swapChoice hboot⟩).2
  intro k e k' ⟨hi, hc⟩ hs
  exact ⟨step_inv hi hs, (step_swapChoice hi hs).trans hc⟩

/-- With no `swapped` flag set every load is whole. -/
theorem Framed.loadsWhole (hk : k.Framed) (hu : k.frames.Unswapped) : k.LoadsWhole e := by
  cases e with
  | load fire =>
    intro w f c s S hhere hsp hS hsw
    obtain ⟨T, hT, -⟩ := hk.inv.running
    have hhand : k.frames.hand k.currentThread = some (w, f) := by
      rw [frames_hand_current (by rw [hT]; rfl), hhere]
      rfl
    obtain ⟨s', p, hh, -, hp, -⟩ := hk.frames.hands hhand
    have hhome : k.frames.home k.currentThread = some s :=
      frames_home.mpr ⟨T, hT, (spaceOf_of_live hT).symm.trans hsp⟩
    cases hhome.symm.trans hh
    have hfalse := hu hp
    obtain ⟨S', hS', hp⟩ := frames_place.mp hp
    cases hS.symm.trans hS'
    obtain ⟨-, rfl⟩ := AddrSpace.place_eq_some.mp hp
    rw [show S.swapped w.toNat = false from hfalse] at hsw
    cases hsw
  | fault addr random =>
    intro _ s S _ hS hlt
    exact (hu (frames_place.mpr ⟨S, hS, AddrSpace.place_eq_some.mpr ⟨hlt, rfl⟩⟩) :)
  | _ => trivial

theorem boot_unswapped {c : Config} (hboot : boot c = .ok k) (hj : ∀ v, c.junk v = false) :
    k.frames.Unswapped := by
  intro s v p hp
  exact (boot_place hboot hp).2.trans (hj v)

theorem Framed.step_unswapped (hk : k.Framed) (hu : k.frames.Unswapped) (he : e.Clear)
    (hs : k.step e = .ok k') : k'.Framed ∧ k'.frames.Unswapped := by
  have hw : k.LoadsWhole e := hk.loadsWhole hu
  exact ⟨hk.step hw hs, hu.steps he (step_frames hk.inv hk.sized hk.frames hw hs)⟩

/-- Along a run in which all new flags are clear, none is ever set. -/
theorem Framed.run_unswapped {k0 : Kernel} (h0 : k0.Framed) (hu : k0.frames.Unswapped)
    (hes : ∀ e ∈ es, e.Clear) (hrun : Run Kernel.step k0 es k) :
    k.Framed ∧ k.frames.Unswapped := by
  have hclear : Guarded Kernel.step (fun _ e => e.Clear) k0 es := .of_events fun e he _ => hes e he
  refine hrun.guarded_inv (I := fun k => k.Framed ∧ k.frames.Unswapped) ?_ hclear ⟨h0, @hu⟩
  exact fun k e k' h he hs => h.1.step_unswapped h.2 he hs

theorem run_unswapped {c : Config} {k0 : Kernel} (hboot : boot c = .ok k0)
    (hj : ∀ v, c.junk v = false) (hes : ∀ e ∈ es, e.Clear) (hrun : Run step k0 es k) :
    k.Framed ∧ k.frames.Unswapped :=
  (boot_framed hboot).run_unswapped (boot_unswapped hboot hj) hes hrun

/-- So every load of it is whole. -/
theorem clear_run {c : Config} {k0 : Kernel} (hboot : boot c = .ok k0)
    (hj : ∀ v, c.junk v = false) (hes : ∀ e ∈ es, e.Clear) : Guarded step LoadsWhole k0 es := by
  have hclear : Guarded step (fun _ e => e.Clear) k0 es := .of_events fun e he _ => hes e he
  have h0 : k0.frames.Unswapped := boot_unswapped hboot hj
  refine hclear.strengthen (I := fun k => k.Framed ∧ k.frames.Unswapped) ?_ ?_
    ⟨boot_framed hboot, h0⟩
  · exact fun k e k' h he hs => h.1.step_unswapped h.2 he hs
  · exact fun k e h _ => h.1.loadsWhole h.2

/-- With FIFO replacement, whatever is preempted: no frame is ever shared, and
in every state in which memory is full the lookup of a fault's victim succeeds
exactly if the frame at the front of the list is not in flight. -/
theorem victim_found_iff {c : Config} {k0 : Kernel} (hboot : boot c = .ok k0)
    (hfifo : c.swapChoice = 1) (hrun : Run step k0 es k)
    (hg : Guarded step LoadsWhole k0 es) :
    k.NoSharedFrame ∧ (k.find = none →
      (k.VictimFound (k.pageList.headD 0) ↔ ¬ k.InFlight (k.pageList.headD 0)) ∧
      ∀ random, (∃ r, k.selectPage random = .ok r) ↔ ¬ k.InFlight (k.pageList.headD 0)) := by
  have h0 := boot_framed hboot
  have hk := h0.run hrun hg
  have hfifo : k.swapChoice = 1 := (run_swapChoice hboot hrun).trans hfifo
  refine ⟨hk.noSharedFrame, fun hfull => ?_⟩
  have hlt := hk.front_lt hfifo hfull
  have hfound : ¬ k.InFlight (k.pageList.headD 0) → k.VictimFound (k.pageList.headD 0) :=
    hk.victimFound (marked_of_full hfull hlt)
  refine ⟨⟨?_, hfound⟩, fun random => ⟨?_, fun hf => ?_⟩⟩
  · rintro ⟨t, T, s, S, v, -, -, -, hS, hpage⟩
    obtain ⟨hv, hphys⟩ := AddrSpace.pageOf_eq_some hpage
    exact hk.not_inFlight
      (frames_place.mpr ⟨S, hS, AddrSpace.place_eq_some.mpr ⟨hv, rfl⟩⟩) hphys
  · intro ⟨⟨f, k1⟩, hsel⟩
    rcases selectPage_frames hsel with ⟨hfind, -⟩ | ⟨-, s, v, p, hp, hpf, hfront, -⟩
    · rw [hfull] at hfind
      cases hfind
    · rw [← hfront hfifo]
      exact hk.not_inFlight hp hpf
  · have hvictim : k.victim random = .ok (k.pageList.headD 0,
        { k with pageList := k.pageList.tail }) := if_pos hfifo
    exact selectPage_of_victim hfull hvictim hlt (hfound hf)

/-- The first process loads its code and starts another one, which chooses frame 1 and
is preempted in the page lock. Then the first process fills memory. -/
def suspendedSample : List Event :=
  faultSample 0 ++ execSample ++ [.trap, .yield] ++
  [.enable false, .create, .fault 0 0, .lock true] ++
  (List.range 30).flatMap fun v => faultSample (v + 1)

theorem victim_found_sample : ∃ (k0 k : Kernel), boot (.sample 1) = .ok k0 ∧
    Run step k0 suspendedSample k ∧ k.find = none ∧ k.InFlight 1 ∧ k.NoSharedFrame ∧
    k.VictimFound (k.pageList.headD 0) := by
  have hdemo : (Config.sample 1).reaches suspendedSample (fun k =>
      decide (k.find = none) && decide ((k.live 1).isSome ∧ k.cont 1 = .locked 0 1 false) &&
      match k.selectPage 0 with
      | .ok _ => true
      | .error _ => false) = true := by decide +kernel
  obtain ⟨k0, k, hboot, hrun, hp⟩ := Config.reaches_iff.mp hdemo
  simp only [Bool.and_eq_true, decide_eq_true_eq] at hp
  obtain ⟨⟨hfull, hlive, hcont⟩, hsel⟩ := hp
  have hfault (v : Nat) : ∀ e ∈ faultSample v, e.Clear := by simp [faultSample, Event.Clear]
  have hes : ∀ e ∈ suspendedSample, e.Clear := by
    refine List.forall_mem_append.mpr ⟨by simp [faultSample, execSample, Event.Clear], ?_⟩
    intro e he
    obtain ⟨v, -, he⟩ := List.mem_flatMap.mp he
    exact hfault _ e he
  obtain ⟨hshared, hlookup⟩ :=
    victim_found_iff hboot rfl hrun (clear_run hboot (fun _ => rfl) hes)
  obtain ⟨hfound, hselect⟩ := hlookup hfull
  have hfront : ¬ k.InFlight (k.pageList.headD 0) := by
    refine (hselect 0).mp ?_
    split at hsel
    · exact ⟨_, ‹_›⟩
    · cases hsel
  obtain ⟨T, hT⟩ := Option.isSome_iff_exists.mp hlive
  exact ⟨k0, k, hboot, hrun, hfull, ⟨1, T, 0, hT, by rw [hcont]; rfl⟩, hshared, hfound.mpr hfront⟩

/-- Three processes. The first loads its code, starts two others and lets them
load theirs, then fills memory with its data. Process 1 takes a page, at the
cost of the first one's code, and exits: its frames 1 and 0 are free, and still
on the list, 1 at the front. Process 2 takes frame 0; the first process needs
its code again, takes frame 1 and is preempted in the page lock. -/
def preemptedSample : List Event :=
  faultSample 0 ++ execSample ++ execSample ++ [.trap, .yield] ++
  [.enable false, .create] ++ faultSample 0 ++ [.trap, .yield] ++
  [.enable false, .create] ++ faultSample 0 ++ [.trap, .yield] ++
  (List.range 29).flatMap (fun v => faultSample (v + 1)) ++ [.trap, .yield] ++
  faultSample 1 ++ [.trap, .exit] ++
  faultSample 1 ++ [.trap, .yield] ++
  [.fault 0 0, .lock true]

/-- Now process 2 needs a victim: the front of the list is frame 1, which the
first process has in hand, and `ipt[1]` is the thread that has exited. -/
theorem victim_not_found : ∃ (k0 k : Kernel), boot (.sample 1) = .ok k0 ∧
    Run step k0 preemptedSample k ∧ k.atUser ∧ k.Faults 512 ∧ k.find = none ∧
    ¬ k.VictimFound (k.pageList.headD 0) ∧ k.step (.fault 512 0) = .error .undefined := by
  have hdemo : (Config.sample 1).reaches preemptedSample (fun k =>
      decide k.atUser && decide (k.Faults 512) && decide (k.find = none) &&
      decide (((k.ipt (k.pageList.headD 0)).bind k.live) = none) &&
      match k.step (.fault 512 0) with
      | .error .undefined => true
      | _ => false) = true := by
    decide +kernel
  obtain ⟨k0, k, hboot, hrun, hp⟩ := Config.reaches_iff.mp hdemo
  simp only [Bool.and_eq_true, decide_eq_true_eq] at hp
  obtain ⟨⟨⟨⟨hu, hflt⟩, hfull⟩, hdead⟩, hstep⟩ := hp
  refine ⟨k0, k, hboot, hrun, hu, hflt, hfull, ?_, ?_⟩
  · rintro ⟨t, T, -, -, -, hi, hT, -⟩
    rw [hi, Option.bind_some, hT] at hdead
    cases hdead
  · split at hstep
    · assumption
    · cases hstep

end Kernel
end Nachos
