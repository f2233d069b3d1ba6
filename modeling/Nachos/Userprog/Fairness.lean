import Nachos.Userprog.Join

/-! The ready list is served in order. A thread on it gets nearer to its front whenever
the CPU is handed over, with one exception: a thread that finishes puts the one that
joined it in front of everybody, and hands the CPU straight to it. Such a hand-over
does not count for the others, but it does not set them back either. -/

namespace Nachos
open Lib
namespace Kernel

variable {k k' k1 : Kernel} {n : Next} {e : Event} {t : ThreadPtr}

/-- The event is the end of a thread that somebody joined. -/
def wakesJoiner (k : Kernel) (e : Event) : Bool :=
  match e with
  | .exit | .fatal _ _ => ((k.live k.currentThread).bind Thread.parent).isSome
  | _ => false

/-- How often the CPU is handed over in a run, not counting from a thread that finishes
to the one that joined it. -/
def handOvers : Kernel → List Event → Nat
  | _, [] => 0
  | k, e :: es =>
    match k.step e with
    | .error _ => 0
    | .ok k' =>
      (if k'.currentThread = k.currentThread ∨ k.wakesJoiner e = true then 0 else 1) +
        handOvers k' es

/-! ## The ready list in one event -/

theorem MemoryOnly.readyList (h : MemoryOnly k k') :
    k'.readyList = k.readyList ∧ k'.currentThread = k.currentThread :=
  ⟨(congrArg Kernel.readyList h.rest :), (congrArg Kernel.currentThread h.rest :)⟩

theorem lockV_readyList (k : Kernel) (f : Nat) :
    ∃ back, (k.lockV f).readyList = k.readyList ++ back := by
  unfold lockV
  split
  · exact ⟨[], (List.append_nil _).symm⟩
  · exact ⟨_, rfl⟩

/-- In front of the dispatch, threads may have joined the end of the list. -/
theorem act_readyList (hi : k.Inv) (hne : ¬ e.Finishes) (h : k.act e = .ok (k1, n)) :
    (∃ back, k1.readyList = k.readyList ++ back) ∧ k1.currentThread = k.currentThread := by
  have hsame {k2 : Kernel} (hr : k2.readyList = k.readyList)
      (hc : k2.currentThread = k.currentThread) :
      (∃ back, k2.readyList = k.readyList ++ back) ∧ k2.currentThread = k.currentThread :=
    ⟨⟨[], by rw [hr, List.append_nil]⟩, hc⟩
  cases acts_of_act h with
  | instr _ h1 =>
    obtain ⟨hr, hc⟩ := (accesses_memoryOnly h1).readyList
    exact hsame hr hc
  | tick _ => exact hsame rfl rfl
  | @fault addr _ _ _ _ h1 =>
    obtain ⟨s, f, k2, -, hsel, hbranch⟩ := pageFault_cases h1
    have hm := (selectPage_memoryOnly hsel).1
    rcases hbranch with ⟨-, rfl⟩ | ⟨-, hfill⟩
    · exact hsame (hm.readyList.1 :) (hm.readyList.2 :)
    · have := (hm.trans (fillPage_memoryOnly hfill)).readyList
      exact hsame (this.1 :) (this.2 :)
  | lock h =>
    obtain ⟨v, f, c, -, ⟨rfl, -⟩ | ⟨rfl, -⟩⟩ := lock_cases h
    · exact hsame rfl rfl
    · exact hsame rfl rfl
  | load h =>
    obtain ⟨v, f, c, s, k2, -, -, hfill, rfl, -⟩ := load_cases h
    obtain ⟨hr, hc⟩ := (fillPage_memoryOnly hfill).readyList
    obtain ⟨back, hback⟩ := k2.lockV_readyList f
    obtain ⟨st, r, l, hV⟩ := k2.lockV_eq f
    refine ⟨⟨back, ?_⟩, ?_⟩
    · rw [← hr]
      exact hback
    · rw [hV]
      exact hc
  | trap _ => exact hsame rfl rfl
  | copy _ h1 =>
    obtain ⟨hr, hc⟩ := (access_memoryOnly h1).readyList
    exact hsame hr hc
  | @ret result _ => cases result <;> exact hsame rfl rfl
  | exec hc h =>
    obtain ⟨hi', ha'⟩ := hi.back hc
    rcases exec_cases hi' ha' h with ⟨-, rfl, -⟩ | ⟨x, k2, -, hnew, -, rfl⟩
    · exact hsame rfl rfl
    · obtain ⟨-, -, hready, -, hcur, -⟩ :=
        exec_spawned (r := BitVec.ofNat 32 (k.goTo .user).threadID) hnew
      exact ⟨⟨_, hready⟩, hcur⟩
  | join hc h =>
    obtain ⟨hi', ha'⟩ := hi.back hc
    rcases join_target hi' ha' h with ⟨-, rfl, -⟩ | ⟨c, -, -, rfl⟩
    · exact hsame rfl rfl
    · exact hsame rfl rfl
  | yield _ => exact hsame rfl rfl
  | exit => exact absurd trivial hne
  | fatal => exact absurd trivial hne
  | enable _ => exact hsame rfl rfl
  | @create k2 _ h1 =>
    obtain ⟨_, _, -, -, hk, -⟩ := create_eq_ok h1
    exact hsame (congrArg Kernel.readyList hk :) (congrArg Kernel.currentThread hk :)

/-- A thread that finishes puts the one that joined it in front. -/
theorem act_readyList_finish (hi : k.Inv) (he : e.Finishes) (h : k.act e = .ok (k1, n))
    {T : Thread} (hT : k.live k.currentThread = some T) :
    k1.readyList = T.parent.toList ++ k.readyList ∧ k1.currentThread = k.currentThread ∧
      n = .sleep := by
  obtain ⟨s, hs, -⟩ := hi.procs.space hT
  have hend (r : Registers) (h : { k with registers := r }.terminate = .ok k1) :
      k1.readyList = T.parent.toList ++ k.readyList ∧ k1.currentThread = k.currentThread := by
    obtain ⟨_, _, _, -, -, hk⟩ :=
      terminate_eq_ok (k := { k with registers := r }) (live_eq_some hT).2 hs h
    rw [hk]
    exact ⟨rfl, rfl⟩
  cases acts_of_act h with
  | exit _ h1 =>
    obtain ⟨hr, hc⟩ := hend k.registers h1
    exact ⟨hr, hc, rfl⟩
  | fatal _ h1 =>
    obtain ⟨hr, hc⟩ := hend _ h1
    exact ⟨hr, hc, rfl⟩
  | _ => exact absurd he id

/-! ## One step -/

/-- The dispatch takes the thread in front and may put the old one at the end. -/
theorem dispatch_readyList (h : k.dispatch n = .ok k') :
    (n ≠ .sleep ∧ k'.readyList = k.readyList ∧ k'.currentThread = k.currentThread) ∨
    ∃ next rest back, k.readyList = next :: rest ∧ k'.currentThread = next ∧
      k'.readyList = rest ++ back := by
  rcases dispatch_cases h with ⟨hn, rfl | ⟨-, rfl⟩⟩ | ⟨next, rest, regs, st, hl, -, hs⟩
  · exact .inl ⟨hn, rfl, rfl⟩
  · exact .inl ⟨hn, rfl, rfl⟩
  · exact .inr ⟨next, rest, _, hl, hs.current, hs.ready⟩

theorem Inv.current_not_ready (hi : k.Inv) : k.currentThread ∉ k.readyList := by
  intro h
  have hseat := hi.seated k.currentThread
  have hle := seats_le_one (k.live k.currentThread)
  have hpos := List.count_pos_iff.mpr h
  unfold waiting onCPU at hseat
  simp only [reduceCtorEq, if_false, if_true] at hseat
  omega

/-- A hand-over from a list that starts like the ready list before the event. -/
theorem rank_handOver {next : ThreadPtr} {l rest back : List ThreadPtr}
    (back' : List ThreadPtr) (ht : t ∈ l) (hl : l ++ back = next :: rest) (hne : next ≠ t) :
    next ∈ l ∧ t ∈ rest ++ back' ∧ (rest ++ back').idxOf t + 1 = l.idxOf t := by
  cases l with
  | nil => cases ht
  | cons a l =>
    rw [List.cons_append] at hl
    obtain ⟨rfl, rfl⟩ := List.cons.inj hl
    have htl : t ∈ l := (List.mem_cons.mp ht).resolve_left hne.symm
    refine ⟨List.mem_cons_self, by simp [htl], ?_⟩
    rw [List.append_assoc, List.idxOf_append_of_mem htl, List.idxOf_cons_ne _ hne]

theorem wakesJoiner_of_not_finishes (hne : ¬ e.Finishes) : k.wakesJoiner e = false := by
  cases e with
  | exit => exact absurd trivial hne
  | fatal => exact absurd trivial hne
  | _ => rfl

theorem wakesJoiner_of_finishes (he : e.Finishes) {T : Thread}
    (hT : k.live k.currentThread = some T) : k.wakesJoiner e = T.parent.isSome := by
  cases e with
  | exit => rw [wakesJoiner, hT]; rfl
  | fatal => rw [wakesJoiner, hT]; rfl
  | _ => exact absurd he id

/-- While a ready thread does not run, its place in the list counts the hand-overs. -/
theorem step_rank (hi : k.Inv) (h : k.step e = .ok k') (ht : t ∈ k.readyList)
    (hne : k'.currentThread ≠ t) :
    t ∈ k'.readyList ∧ k'.readyList.idxOf t +
      (if k'.currentThread = k.currentThread ∨ k.wakesJoiner e = true then 0 else 1) =
        k.readyList.idxOf t := by
  obtain ⟨⟨k1, n⟩, hact, hd⟩ := bind_eq_ok.mp h
  obtain ⟨T, hT, hTj⟩ := hi.running
  have hcur : ∀ {x}, x ∈ k.readyList → x ≠ k.currentThread := fun hx he =>
    hi.current_not_ready (he ▸ hx)
  by_cases he : e.Finishes
  · obtain ⟨hready, -, rfl⟩ := act_readyList_finish hi he hact hT
    have hw := wakesJoiner_of_finishes he hT
    rcases dispatch_readyList hd with ⟨hn, -⟩ | ⟨next, rest, back, hl, hc, hr⟩
    · exact absurd rfl hn
    dsimp only at hl
    rw [hready] at hl
    rw [hr, hw, hc]
    cases hp : T.parent with
    | none =>
      rw [hp, Option.toList_none, List.nil_append] at hl
      have hl' : k.readyList ++ [] = next :: rest := by rw [List.append_nil, hl]
      obtain ⟨hmem, htr, hidx⟩ := rank_handOver back ht hl' (hc ▸ hne)
      refine ⟨htr, ?_⟩
      rw [if_neg (by simp [hcur hmem])]
      exact hidx
    | some p =>
      rw [hp, Option.toList_some, List.singleton_append] at hl
      obtain ⟨rfl, rfl⟩ := List.cons.inj hl
      refine ⟨List.mem_append_left _ ht, ?_⟩
      rw [if_pos (by simp), List.idxOf_append_of_mem ht]
      rfl
  · obtain ⟨⟨back, hready⟩, hc1⟩ := act_readyList hi he hact
    have hw : k.wakesJoiner e = false := wakesJoiner_of_not_finishes he
    rcases dispatch_readyList hd with ⟨-, hr, hc⟩ | ⟨next, rest, back', hl, hc, hr⟩
    · dsimp only at hr hc
      rw [hr, hready, if_pos (.inl (hc.trans hc1)), List.idxOf_append_of_mem ht]
      exact ⟨List.mem_append_left _ ht, rfl⟩
    · dsimp only at hl
      rw [hready] at hl
      obtain ⟨hmem, htr, hidx⟩ := rank_handOver back' ht hl (hc ▸ hne)
      rw [hr, hw, hc, if_neg (by simp [hcur hmem])]
      exact ⟨htr, hidx⟩

/-! ## Runs -/

/-- A ready thread with `i` others in front of it has run by the time the CPU has been
handed over `i + 1` times, not counting hand-overs from a finishing thread to the one
that joined it. -/
theorem ready_thread_runs {es : List Event} (hk : Reachable k) (ht : t ∈ k.readyList)
    (hrun : Run step k es k') (hcount : k.readyList.idxOf t < k.handOvers es) :
    ∃ es₁ es₂ m, es = es₁ ++ es₂ ∧ Run step k es₁ m ∧ m.currentThread = t := by
  have hi := hk.inv
  clear hk
  induction hrun with
  | nil => simp [handOvers] at hcount
  | @cons k e k1 es k' hs _ ih =>
    by_cases hc : k1.currentThread = t
    · exact ⟨[e], es, k1, rfl, run_singleton.mpr hs, hc⟩
    · obtain ⟨ht1, hidx⟩ := step_rank hi hs ht hc
      rw [handOvers, hs] at hcount
      dsimp only at hcount
      obtain ⟨es₁, es₂, m, rfl, hr, hm⟩ := ih ht1 (by omega) (step_inv hi hs)
      exact ⟨e :: es₁, es₂, m, rfl, .cons hs hr, hm⟩

/-- Behind one other thread, the thread `2` has run after two hand-overs. -/
theorem ready_thread_runs_sample : ∃ (k k' : Kernel) (es : List Event), Reachable k ∧
    k.readyList = [1, 2] ∧ Run step k es k' ∧
    ∃ es₁ es₂ m, es = es₁ ++ es₂ ∧ Run step k es₁ m ∧ m.currentThread = 2 := by
  have hdemo : (Config.sample 1).reaches (execSample ++ execSample) (fun k =>
      decide (k.readyList = [1, 2]) &&
      continues step k [.trap, .yield, .enable false, .create, .trap, .yield] fun _ =>
        decide (1 < k.handOvers [.trap, .yield, .enable false, .create, .trap, .yield])) =
      true := by
    decide +kernel
  obtain ⟨k0, k, hboot, hrun, hp⟩ := Config.reaches_iff.mp hdemo
  simp only [Bool.and_eq_true, decide_eq_true_eq] at hp
  obtain ⟨hready, hcont⟩ := hp
  obtain ⟨k', hrun', hcount⟩ := continues_iff.mp hcont
  have hk : Reachable k := ⟨_, _, k0, hboot, hrun⟩
  refine ⟨k, k', _, hk, hready, hrun', ready_thread_runs hk ?_ hrun' ?_⟩
  · rw [hready]
    decide
  · rw [hready]
    exact of_decide_eq_true hcount

end Kernel
end Nachos
