import Nachos.Userprog.UserMemory

/-! `SC_Exec` from the system call to the end of its handler (exception.cc), in
one go: the name is copied byte by byte through `ReadMem`, whose page faults are
handled on the spot. The first byte is read again after a fault; a fault at any
other makes the handler return. Whoever returns early, and whoever finds no
file, leaves in register 2 what the caller put there: the number of the call. -/

namespace Nachos
open Lib

abbrev scExec : BitVec 32 := 2

/-- What a call depends on besides the state: what `Random()` returns at the
faults at the first byte, at its second reading and at a later byte; whether
the literals `"main"` are merged; the uninitialised array of the new space; and
the timer. -/
structure Choices where
  random : Nat → Nat
  merged : Bool
  junk : Nat → Bool
  fire : Bool

/-- What the copying of the name comes to. -/
inductive Copied
  | name (filename : FileName) (k : Kernel)
  | returned (k : Kernel)
  | killed (k : Kernel)

namespace Kernel

/-- The loop that copies the name: `j` is the byte at `fileAddress`, `room` what
is left of the hundred bytes of `filename`. The last of them must stay 0. -/
def copyName (random : Nat) (merged : Bool) (room : Nat) (k : Kernel) (fileAddress : BitVec 32)
    (filename : FileName) (j : UInt8) : Except Fault Copied :=
  match room with
  | 0 => .error .undefined
  | room + 1 =>
    if j = 0 then .ok (.name filename k)
    else do
      match ← k.readMem (fileAddress + 1) random merged with
      | .value j' k => copyName random merged room k (fileAddress + 1) (filename ++ [j]) j'
      | .failed k => .ok (.returned k)
      | .killed k => .ok (.killed k)

/-- The rest of the call, once the first byte has been read. -/
def execFrom (k : Kernel) (c : Choices) (fileAddress : BitVec 32) (j : UInt8) :
    Except Fault CallEnd := do
  match ← copyName (c.random 2) c.merged 100 k fileAddress [] j with
  | .name filename k => do
    let r ← (k.goTo .user).exec filename c.junk c.fire
    .ok (.returned r.1 r.2)
  | .returned k => .ok (.returned (k.goTo .user) .stay)
  | .killed k => .ok (.killed k)

/-- The call from the second reading of the first byte on. If that fails too,
`j` has no value. -/
def execRetry (k : Kernel) (c : Choices) (fileAddress : BitVec 32) : Except Fault CallEnd := do
  match ← k.readMem fileAddress (c.random 1) c.merged with
  | .value j k => k.execFrom c fileAddress j
  | .failed _ => .error .undefined
  | .killed k => .ok (.killed k)

/-- `SC_Exec`, from the instruction on. -/
def execCall (k : Kernel) (c : Choices) : Except Fault CallEnd := do
  match ← k.trap.readMem (k.trap.registers 4) (c.random 0) c.merged with
  | .value j k1 => k1.execFrom c (k.trap.registers 4) j
  | .failed k1 => k1.execRetry c (k.trap.registers 4)
  | .killed k1 => .ok (.killed k1)

/-! ## What the result should be -/

/-- The call has made a process: a thread with an ID nobody has, that is
active and ready to run, and its ID is the result. -/
structure Started (k k' : Kernel) : Prop where
  result : k'.registers 2 = BitVec.ofNat 32 k.threadID
  fresh : ∀ t T, k.live t = some T → T.ID ≠ k.threadID
  new : k.live k.nextThread = none
  live : ∃ T, k'.live k.nextThread = some T ∧ T.ID = k.threadID
  active : k'.activeThreads = k.activeThreads ++ [k.nextThread]
  ready : k.nextThread ∈ k'.readyList

/-- The result of a call for `name` is true: a new process if the file opens, a
negative number otherwise, and in no case the ID of a process that was there. -/
def TellsTruth (k : Kernel) (name : FileName) (k' : Kernel) : Prop :=
  (match k.exe name with
    | some _ => k.Started k'
    | none => (k'.registers 2).toInt < 0) ∧
  ∀ t T, k.live t = some T → k'.registers 2 ≠ BitVec.ofNat 32 T.ID

/-- As far as it is in memory, what stands at `addr` is `name` and a NUL. -/
def Reads (k : Kernel) (addr : BitVec 32) (name : FileName) : Prop :=
  ∀ i ≤ name.length, ∀ physAddr, k.Mapped (addr + BitVec.ofNat 32 i) physAddr →
    k.mainMemory physAddr = name.getD i 0

variable {k k' k1 : Kernel} {s : SpacePtr} {S : AddrSpace} {addr : BitVec 32} {random : Nat}
  {merged : Bool} {c : Choices} {name : FileName} {n : Next}

/-- The running thread is in its call, with no load pending. -/
structure InExec (k : Kernel) : Prop where
  number : k.registers 2 = scExec
  idle : k.registers loadReg = 0

/-- The call is back without a result. -/
structure Unanswered (k k' : Kernel) : Prop where
  result : k'.registers 2 = scExec
  active : k'.activeThreads = k.activeThreads

theorem Unanswered.not_tellsTruth (h : Unanswered k k') : ¬ k.TellsTruth name k' := by
  rintro ⟨ht, -⟩
  split at ht
  · have := ht.active
    rw [h.active] at this
    simp at this
  · rw [h.result] at ht
    exact absurd ht (by decide)

theorem Browsed.inExec (h : Browsed k k') (hk : k.InExec) : k'.InExec := by
  have hr : k'.registers = k.registers := (congrArg Kernel.registers h.only.rest :)
  exact ⟨hr ▸ hk.number, hr ▸ hk.idle⟩

theorem Browsed.unanswered {k'' : Kernel} (h : Browsed k k') (h' : Unanswered k' k'') :
    Unanswered k k'' :=
  ⟨h'.result, h'.active.trans (congrArg Kernel.activeThreads h.only.rest :)⟩

/-- What the truth of a result depends on. -/
structure Alike (k k1 : Kernel) : Prop where
  exe : k1.exe = k.exe
  live : k1.live = k.live
  ids : k1.threadID = k.threadID
  next : k1.nextThread = k.nextThread
  active : k1.activeThreads = k.activeThreads

theorem Alike.symm (h : Alike k k1) : Alike k1 k :=
  ⟨h.exe.symm, h.live.symm, h.ids.symm, h.next.symm, h.active.symm⟩

theorem Alike.trans {k2 : Kernel} (h : Alike k k1) (h' : Alike k1 k2) : Alike k k2 :=
  ⟨h'.exe.trans h.exe, h'.live.trans h.live, h'.ids.trans h.ids, h'.next.trans h.next,
    h'.active.trans h.active⟩

theorem MemoryOnly.alike (h : MemoryOnly k k1) : Alike k k1 :=
  ⟨(congrArg Kernel.exe h.rest :), h.loc.live, (congrArg Kernel.threadID h.rest :),
    (congrArg Kernel.nextThread h.rest :), (congrArg Kernel.activeThreads h.rest :)⟩

theorem Alike.tellsTruth (h : Alike k k1) (ht : k.TellsTruth name k') : k1.TellsTruth name k' := by
  obtain ⟨ht, hother⟩ := ht
  refine ⟨?_, by rw [h.live]; exact hother⟩
  rw [h.exe]
  split at ht
  · exact ⟨h.ids ▸ ht.result, by rw [h.live, h.ids]; exact ht.fresh,
      by rw [h.live, h.next]; exact ht.new, by rw [h.next, h.ids]; exact ht.live,
      by rw [h.active, h.next]; exact ht.active, h.next ▸ ht.ready⟩
  · exact ht

/-- Bringing a page in leaves alone what the result depends on. -/
theorem bringIn_keeps (hk : k.InExec) (h : k.bringIn addr random = .ok k1) :
    k1.InExec ∧ Alike k k1 := by
  unfold bringIn at h
  split at h
  · obtain ⟨s, -, h⟩ := bind_eq_ok.mp h
    obtain ⟨st, r, l, hrest⟩ := loadPage_unpaged h
    have hregs : k1.registers = k.registers.raise addr := (congrArg Kernel.registers hrest :)
    have hlive : k1.live = k.live := by
      funext t
      unfold live
      rw [show k1.threadToBeDestroyed = k.threadToBeDestroyed from
          (congrArg Kernel.threadToBeDestroyed hrest :),
        show k1.thread = k.thread from (congrArg Kernel.thread hrest :)]
    refine ⟨⟨?_, ?_⟩, (congrArg Kernel.exe hrest :), hlive, (congrArg Kernel.threadID hrest :),
      (congrArg Kernel.nextThread hrest :), (congrArg Kernel.activeThreads hrest :)⟩
    · rw [hregs, Registers.raise_of_idle hk.idle (by decide) (by decide)]
      exact hk.number
    · rw [hregs, Registers.raise_loadReg]
  · cases h
    exact ⟨hk, rfl, rfl, rfl, rfl, rfl⟩

theorem readMem_unmapped {r : ReadResult} (hk : k.InExec) (h : ∀ physAddr, ¬ k.Mapped addr physAddr)
    (hr : k.readMem addr random merged = .ok r) :
    (∃ k', r = .failed k' ∧ Unanswered k k') ∨ ∃ k', r = .killed k' := by
  rcases readMem_cases hr with ⟨physAddr, entry, htr, -⟩ | ⟨k1, -, hin, rfl⟩ | ⟨r', -, rfl⟩
  · exact absurd ⟨entry, htr⟩ (h physAddr)
  · obtain ⟨hk1, halike⟩ := bringIn_keeps hk hin
    exact .inl ⟨k1, rfl, hk1.number, halike.active⟩
  · exact .inr ⟨r'.1, rfl⟩

/-! ## Copying the name -/

theorem copyName_value {room : Nat} {filename : FileName} {j j' : UInt8} (hj : j ≠ 0)
    (h : k.readMem (addr + 1) random merged = .ok (.value j' k1)) :
    copyName random merged (room + 1) k addr filename j =
      copyName random merged room k1 (addr + 1) (filename ++ [j]) j' := by
  rw [copyName, if_neg hj, h, ok_bind]

/-- The name is copied if all of it is in memory. -/
theorem copyName_mapped {rest : List UInt8} {room : Nat} (hnul : 0 ∉ rest)
    (hroom : rest.length < room) (hread : ∀ i, 0 < i → i ≤ rest.length → ∃ physAddr,
      k.Mapped (addr + BitVec.ofNat 32 i) physAddr ∧ k.mainMemory physAddr = rest.getD i 0)
    (filename : FileName) : ∃ k', copyName random merged room k addr filename (rest.getD 0 0) =
      .ok (.name (filename ++ rest) k') ∧ Browsed k k' := by
  induction rest generalizing k addr filename room with
  | nil =>
    obtain ⟨room, rfl⟩ := Nat.exists_eq_succ_of_ne_zero (Nat.ne_of_gt hroom)
    exact ⟨k, by rw [List.append_nil]; exact if_pos rfl, .refl k⟩
  | cons b rest ih =>
    obtain ⟨room, rfl⟩ := Nat.exists_eq_succ_of_ne_zero (Nat.ne_of_gt (Nat.zero_lt_of_lt hroom))
    simp only [List.mem_cons, not_or] at hnul
    obtain ⟨physAddr, hm, hbyte⟩ := hread 1 Nat.one_pos (by simp)
    obtain ⟨k1, hval, hbrowse⟩ := readMem_of_mapped hm random merged
    rw [hbyte] at hval
    -- the rest of the name starts at the next address
    obtain ⟨k2, hcopy, hbrowse2⟩ := @ih k1 (addr + 1) room hnul.2
      (Nat.lt_of_succ_lt_succ hroom) (fun i hi hle => by
        obtain ⟨x, hx, hb⟩ := hread (i + 1) (Nat.succ_pos i) (Nat.succ_le_succ hle)
        rw [next_address, hbrowse.memory]
        exact ⟨x, (hbrowse.mapped _ _).mpr hx, hb⟩) (filename ++ [b])
    refine ⟨k2, ?_, hbrowse.trans hbrowse2⟩
    have hstep := @copyName_value k k1 addr random merged room filename b _ (Ne.symm hnul.1) hval
    refine hstep.trans (hcopy.trans ?_)
    rw [List.append_assoc]
    rfl

/-- A name that is not all in memory is not copied: the call returns from the
fault, or the thread ends. -/
theorem copyName_unmapped {rest : List UInt8} {room : Nat} {filename : FileName} {r : Copied}
    (hk : k.InExec) (hnul : 0 ∉ rest)
    (hread : ∀ i, 0 < i → i ≤ rest.length → ∀ physAddr,
      k.Mapped (addr + BitVec.ofNat 32 i) physAddr → k.mainMemory physAddr = rest.getD i 0)
    (hout : ∃ i, 0 < i ∧ i ≤ rest.length ∧
      ∀ physAddr, ¬ k.Mapped (addr + BitVec.ofNat 32 i) physAddr)
    (h : copyName random merged room k addr filename (rest.getD 0 0) = .ok r) :
    (∃ k', r = .returned k' ∧ Unanswered k k') ∨ ∃ k', r = .killed k' := by
  induction rest generalizing k addr filename room with
  | nil =>
    obtain ⟨i, hi, hle, -⟩ := hout
    exact absurd hle (Nat.not_le.mpr hi)
  | cons b rest ih =>
    simp only [List.mem_cons, not_or] at hnul
    have hb : b ≠ 0 := Ne.symm hnul.1
    cases room with
    | zero => cases h
    | succ room =>
      by_cases hm : ∃ physAddr, k.Mapped (addr + 1) physAddr
      · obtain ⟨physAddr, hm⟩ := hm
        obtain ⟨k1, hval, hbrowse⟩ := readMem_of_mapped hm random merged
        rw [hread 1 Nat.one_pos (by simp) physAddr hm] at hval
        have hstep := @copyName_value k k1 addr random merged room filename b _ hb hval
        have hrest := ih (hbrowse.inExec hk) hnul.2 (fun i hi hle x hx => by
            rw [next_address] at hx
            rw [hbrowse.memory]
            exact hread (i + 1) (Nat.succ_pos i) (Nat.succ_le_succ hle) x
              ((hbrowse.mapped _ _).mp hx)) (by
          obtain ⟨i, hi, hle, hno⟩ := hout
          obtain ⟨i, rfl⟩ := Nat.exists_eq_succ_of_ne_zero (Nat.ne_of_gt hi)
          have hne : i ≠ 0 := by
            rintro rfl
            exact hno physAddr hm
          refine ⟨i, Nat.pos_of_ne_zero hne, Nat.le_of_succ_le_succ hle, fun x hx => ?_⟩
          rw [next_address] at hx
          exact hno x ((hbrowse.mapped _ _).mp hx)) (hstep.symm.trans h)
        rcases hrest with ⟨k', rfl, hu⟩ | hkilled
        · exact .inl ⟨k', rfl, hbrowse.unanswered hu⟩
        · exact .inr hkilled
      · have hstep : copyName random merged (room + 1) k addr filename b =
            k.readMem (addr + 1) random merged >>= _ := if_neg hb
        obtain ⟨res, hres, h⟩ := bind_eq_ok.mp (hstep.symm.trans h)
        rcases readMem_unmapped hk (not_exists.mp hm) hres with ⟨k', rfl, hu⟩ | ⟨k', rfl⟩
        · cases h
          exact .inl ⟨k', rfl, hu⟩
        · cases h
          exact .inr ⟨k', rfl⟩

/-! ## Opening the file -/

theorem createFile_hostDir (k : Kernel) (name : FileName) :
    ∃ i, (k.createFile name).hostDir name = some i := by
  unfold createFile
  split
  · rename_i i hi
    exact ⟨i, hi⟩
  · exact ⟨k.nextInode, Function.update_self _ _ _⟩

theorem exec_ok {x : NoffFile} {numPages : Nat} (hi : k.Inv) (ha : k.AtHome)
    (hx : k.exe name = some x) (hn : pagesNeeded (NoffHeader.decode x.bytes) = .ok numPages)
    (junk : Nat → Bool) (fire : Bool) : ∃ r, k.exec name junk fire = .ok r := by
  obtain ⟨T, hT, -⟩ := hi.running
  rw [← ha.thread_eq] at hT
  obtain ⟨⟨s, k1⟩, hnew⟩ : ∃ r, k.newAddrSpace x junk = .ok r := by
    obtain ⟨i, hfile⟩ := k.createFile_hostDir (swapName T.ID)
    unfold newAddrSpace
    rw [hT]
    dsimp only
    rw [hn, ok_bind, hfile]
    exact ⟨_, rfl⟩
  obtain ⟨T', _, _, hT', -, -, -, hk1⟩ := newAddrSpace_eq_ok hnew
  have hthread : k1.thread k1.currentThread = some T' := by rw [hk1]; exact hT'
  unfold exec
  rw [hx]
  dsimp only
  rw [hnew, ok_bind]
  unfold startChild
  rw [hthread]
  dsimp only
  split
  · exact ⟨_, rfl⟩
  · exact ⟨_, rfl⟩

theorem exec_iff {junk : Nat → Bool} {fire : Bool} (hi : k.Inv) (ha : k.AtHome) (hk : k.InExec)
    (hid : k.threadID < 2147483648) :
    (∃ r, k.exec name junk fire = .ok r ∧ k.TellsTruth name r.1) ↔
      ∃ x numPages, k.exe name = some x ∧
        pagesNeeded (NoffHeader.decode x.bytes) = .ok numPages := by
  constructor
  · intro ⟨⟨k', n⟩, h, ht⟩
    rcases exec_cases hi ha h with ⟨-, rfl, -⟩ | ⟨x, k1, hx, hnew, -, -⟩
    · exact absurd ht (Unanswered.not_tellsTruth ⟨hk.number, rfl⟩)
    · obtain ⟨_, numPages, _, -, -, hn, -⟩ := newAddrSpace_eq_ok hnew
      exact ⟨x, numPages, hx, hn⟩
  · intro ⟨x, numPages, hx, hn⟩
    obtain ⟨⟨k', n⟩, h⟩ := exec_ok hi ha hx hn junk fire
    refine ⟨(k', n), h, ?_⟩
    rcases exec_cases hi ha h with ⟨hnone, -⟩ | ⟨x', k1, -, hnew, -, rfl⟩
    · rw [hx] at hnone
      cases hnone
    · obtain ⟨hs, -, hready, -, -, -, -, hregs⟩ :=
        exec_spawned (r := BitVec.ofNat 32 k.threadID) hnew
      have hresult := (congrFun hregs 2).trans (Function.update_self _ _ _)
      refine ⟨?_, fun t T hT he => ?_⟩
      · rw [hx]
        exact ⟨hresult, fun t T hT => Nat.ne_of_lt (hi.procs.idLt hT), hi.procs.live_nextThread,
          ⟨k.child, (hs.live hi.procs _).trans (if_pos rfl), rfl⟩, hs.active,
          by rw [hready]; exact List.mem_append_right _ List.mem_cons_self⟩
      · have hlt := hi.procs.idLt hT
        have hnat := congrArg BitVec.toNat (hresult.symm.trans he)
        rw [BitVec.toNat_ofNat, BitVec.toNat_ofNat] at hnat
        omega

/-! ## The call -/

/-- The call from the second reading of the first byte on. -/
theorem execRetry_iff (hi : k.Inv) (hc : k.here = .call) (hk : k.InExec)
    (hid : k.threadID < 2147483648) (hlen : name.length < 100) (hnul : 0 ∉ name)
    (hname : k.Reads addr name) :
    (∃ k' n, k.execRetry c addr = .ok (.returned k' n) ∧ k.TellsTruth name k') ↔
      (∃ x numPages, k.exe name = some x ∧
        pagesNeeded (NoffHeader.decode x.bytes) = .ok numPages) ∧
      ∀ i ≤ name.length, ∃ physAddr, k.Mapped (addr + BitVec.ofNat 32 i) physAddr := by
  have hzero : addr + BitVec.ofNat 32 0 = addr := BitVec.add_zero addr
  by_cases hfirst : ∃ physAddr, k.Mapped addr physAddr
  · -- the first byte is read, and the rest of the name is copied or not
    obtain ⟨physAddr, hm⟩ := hfirst
    obtain ⟨k1, hval, hbrowse⟩ := readMem_of_mapped hm (c.random 1) c.merged
    rw [hname 0 (Nat.zero_le _) physAddr (hzero.symm ▸ hm)] at hval
    have hretry : k.execRetry c addr = k1.execFrom c addr (name.getD 0 0) := by
      unfold execRetry
      rw [hval, ok_bind]
    rw [hretry]
    by_cases hall : ∀ i ≤ name.length, ∃ physAddr, k.Mapped (addr + BitVec.ofNat 32 i) physAddr
    · obtain ⟨k2, hcopy, hbrowse2⟩ := @copyName_mapped k1 addr (c.random 2) c.merged name 100 hnul
        hlen (fun i _ hle => by
          obtain ⟨x, hx⟩ := hall i hle
          rw [hbrowse.memory]
          exact ⟨x, (hbrowse.mapped _ _).mpr hx, hname i hle x hx⟩) []
      have hend : k1.execFrom c addr (name.getD 0 0) =
          (k2.goTo .user).exec name c.junk c.fire >>= fun r => .ok (.returned r.1 r.2) := by
        unfold execFrom
        rw [hcopy, ok_bind]
        rfl
      have hb := hbrowse.trans hbrowse2
      have hi2 : k2.Inv := hi.memoryOnly hb.only (by simp)
      have ha2 : k2.AtHome := hb.only.atHome (hi.atHome_of_atUser (.inr hc))
      have halike : Alike k (k2.goTo .user) := hb.only.alike.trans ⟨rfl, rfl, rfl, rfl, rfl⟩
      have hin2 := hb.inExec hk
      have hiff := @exec_iff (k2.goTo .user) name c.junk c.fire (hi2.toUser ha2)
        ⟨ha2.dying, ha2.table⟩ ⟨hin2.number, hin2.idle⟩ (by rw [halike.ids]; exact hid)
      rw [halike.exe] at hiff
      rw [hend, and_iff_left hall, ← hiff]
      constructor
      · intro ⟨k', n, h, ht⟩
        obtain ⟨r, hexec, h⟩ := bind_eq_ok.mp h
        cases h
        exact ⟨r, hexec, halike.tellsTruth ht⟩
      · intro ⟨r, hexec, ht⟩
        exact ⟨r.1, r.2, bind_eq_ok.mpr ⟨r, hexec, rfl⟩, halike.symm.tellsTruth ht⟩
    · refine iff_of_false ?_ fun h => hall h.2
      intro ⟨k', n, h, ht⟩
      obtain ⟨r, hcopy, h⟩ := bind_eq_ok.mp h
      have hout : ∃ i, 0 < i ∧ i ≤ name.length ∧
          ∀ physAddr, ¬ k1.Mapped (addr + BitVec.ofNat 32 i) physAddr := by
        simp only [not_forall, not_exists] at hall
        obtain ⟨i, hle, hno⟩ := hall
        have hne : i ≠ 0 := by
          rintro rfl
          exact hno physAddr (hzero.symm ▸ hm)
        exact ⟨i, Nat.pos_of_ne_zero hne, hle, fun x hx => hno x ((hbrowse.mapped _ _).mp hx)⟩
      rcases copyName_unmapped (hbrowse.inExec hk) hnul (fun i _ hle x hx => by
          rw [hbrowse.memory]
          exact hname i hle x ((hbrowse.mapped _ _).mp hx)) hout hcopy with
        ⟨k2, rfl, hu⟩ | ⟨k2, rfl⟩
      · cases h
        have hnone : Unanswered k (k2.goTo .user) := ⟨hu.result, (hbrowse.unanswered hu).active⟩
        exact hnone.not_tellsTruth ht
      · cases h
  · -- read again in vain, or not at all
    refine iff_of_false ?_ fun h => hfirst ?_
    · rintro ⟨k', n, h, -⟩
      obtain ⟨r, hres, h⟩ := bind_eq_ok.mp h
      rcases readMem_unmapped hk (not_exists.mp hfirst) hres with ⟨k2, rfl, -⟩ | ⟨k2, rfl⟩
      · cases h
      · cases h
    · obtain ⟨x, hx⟩ := h.2 0 (Nat.zero_le _)
      exact ⟨x, hzero ▸ hx⟩

/-- A first byte whose page is in memory is read at once; otherwise it is read
again when the page has been brought in. -/
theorem execCall_eq (h : k.trap.bringIn (k.trap.registers 4) (c.random 0) = .ok k1) :
    k.execCall c = k1.execRetry c (k.trap.registers 4) :=
  readMem_again h

theorem trap_inExec (hcall : k.trap.registers 2 = scExec) : k.trap.InExec := by
  have hadvance : (k.registers.raise 0).advance loadReg = k.registers.raise 0 loadReg :=
    Registers.advance_of_ne (by decide) (by decide) (by decide)
  exact ⟨hcall, hadvance.trans (k.registers.raise_loadReg 0)⟩

/-! ## The call as a run of the machine -/

theorem copyName_run {room : Nat} {filename : FileName} {j : UInt8} {r : Copied}
    (hc : k.here = .call) (h : copyName random merged room k addr filename j = .ok r) :
    match r with
    | .name _ k' => GoesOn k k'
    | .returned k' => GoesOn k k'
    | .killed k' => ∃ n, Leads k k' n := by
  induction room generalizing k addr filename j with
  | zero => cases h
  | succ room ih =>
    rw [copyName] at h
    split at h
    · cases h
      exact ⟨⟨[], .nil⟩, hc⟩
    · obtain ⟨res, hres, h⟩ := bind_eq_ok.mp h
      have hread := readMem_run hc hres
      cases res with
      | value j' k1 =>
        have hrest := ih hread.2 h
        cases r with
        | name _ k' => exact hread.trans hrest
        | returned k' => exact hread.trans hrest
        | killed k' =>
          obtain ⟨⟨es, hrun⟩, -⟩ := hread
          obtain ⟨n, hleads⟩ := hrest
          exact ⟨n, hleads.after hrun⟩
      | failed k1 =>
        cases h
        exact hread
      | killed k1 =>
        cases h
        exact hread

theorem execFrom_run {j : UInt8} {r : CallEnd} (hc : k.here = .call)
    (h : k.execFrom c addr j = .ok r) : Ends k r := by
  obtain ⟨res, hres, h⟩ := bind_eq_ok.mp h
  have hcopy := copyName_run hc hres
  cases res with
  | name filename k1 =>
    obtain ⟨⟨es, hrun⟩, hc1⟩ := hcopy
    obtain ⟨⟨k2, n⟩, hexec, h⟩ := bind_eq_ok.mp h
    cases h
    exact ⟨es, k1, .exec filename c.junk c.fire, hrun, ite_error_eq_ok.mpr ⟨hc1, hexec⟩⟩
  | returned k1 =>
    obtain ⟨⟨es, hrun⟩, hc1⟩ := hcopy
    cases h
    exact ⟨es, k1, .ret none, hrun, ite_error_eq_ok.mpr ⟨hc1, rfl⟩⟩
  | killed k1 =>
    cases h
    exact hcopy

theorem execRetry_run {r : CallEnd} (hc : k.here = .call) (h : k.execRetry c addr = .ok r) :
    Ends k r := by
  obtain ⟨res, hres, h⟩ := bind_eq_ok.mp h
  have hread := readMem_run hc hres
  cases res with
  | value j k1 =>
    obtain ⟨⟨es, hrun⟩, hc1⟩ := hread
    exact (execFrom_run hc1 h).after hrun
  | failed k1 => cases h
  | killed k1 =>
    cases h
    exact hread

/-- The call in one go is a run of the machine. -/
theorem execCall_run {r : CallEnd} (hu : k.here = .user) (h : k.execCall c = .ok r) :
    Ends k r := by
  refine Ends.after (run_singleton.mpr (trap_step hu)) ?_
  obtain ⟨res, hres, h⟩ := bind_eq_ok.mp h
  have hread := readMem_run (here_goTo _ _) hres
  cases res with
  | value j k1 =>
    obtain ⟨⟨es, hrun⟩, hc1⟩ := hread
    exact (execFrom_run hc1 h).after hrun
  | failed k1 =>
    obtain ⟨⟨es, hrun⟩, hc1⟩ := hread
    exact (execRetry_run hc1 h).after hrun
  | killed k1 =>
    cases h
    exact hread

/-! ## The result -/

/-- The result of `SC_Exec` is true exactly if the file opens, its sizes add up
to an `int`, and with the first page of the name brought in all of the name is
in memory. -/
theorem exec_truthful_iff (hk : Reachable k) (hu : k.here = .user)
    (hcall : k.trap.registers 2 = scExec) (hid : k.threadID < 2147483648)
    (hlen : name.length < 100) (hnul : 0 ∉ name)
    (hfirst : k.trap.bringIn (k.trap.registers 4) (c.random 0) = .ok k1)
    (hname : k1.Reads (k.trap.registers 4) name) :
    (∃ k' n, k.execCall c = .ok (.returned k' n) ∧ k.TellsTruth name k') ↔
      (∃ x numPages, k.exe name = some x ∧
        pagesNeeded (NoffHeader.decode x.bytes) = .ok numPages) ∧
      ∀ i ≤ name.length, ∃ physAddr,
        k1.Mapped (k.trap.registers 4 + BitVec.ofNat 32 i) physAddr := by
  have hit : k.trap.Inv := step_inv hk.inv (trap_step hu)
  have hct : k.trap.here = .call := here_goTo _ _
  obtain ⟨⟨es, hrun⟩, hc1⟩ := bringIn_goesOn hct hfirst
  obtain ⟨hk1, halike⟩ := bringIn_keeps (trap_inExec hcall) hfirst
  have hi1 : k1.Inv := hrun.inv (fun _ _ _ hi hs => step_inv hi hs) hit
  have htrap : Alike k k.trap := ⟨rfl, rfl, rfl, rfl, rfl⟩
  have halike := htrap.trans halike
  have hiff := @execRetry_iff k1 (k.trap.registers 4) c name hi1 hc1 hk1
    (by rw [halike.ids]; exact hid) hlen hnul hname
  rw [← execCall_eq hfirst, halike.exe] at hiff
  rw [← hiff]
  constructor
  · intro ⟨k', n, h, ht⟩
    exact ⟨k', n, h, halike.tellsTruth ht⟩
  · intro ⟨k', n, h, ht⟩
    exact ⟨k', n, h, halike.symm.tellsTruth ht⟩

/-! ## Concrete calls -/

theorem peeks_sound (h : k.peeks addr name = true) : k.Reads addr name ∧
    ∀ i ≤ name.length, ∃ physAddr, k.Mapped (addr + BitVec.ofNat 32 i) physAddr := by
  have hbyte := peeks_iff.mp h
  constructor
  · intro i hi x hx
    have hpeek := hbyte i hi
    rw [hx.peek_eq] at hpeek
    exact Option.some.inj hpeek
  · intro i hi
    exact peek_isSome_iff.mp (by rw [hbyte i hi]; rfl)

/-- The call returns, in a state with `p`. -/
def answers (k : Kernel) (c : Choices) (p : Kernel → Bool) : Bool :=
  match k.execCall c with
  | .ok (.returned k' _) => p k'
  | _ => false

theorem answers_iff {p : Kernel → Bool} : k.answers c p = true ↔
    ∃ k' n, k.execCall c = .ok (.returned k' n) ∧ p k' = true := by
  unfold answers
  constructor
  · intro h
    split at h
    · rename_i k' n hcall
      exact ⟨k', n, hcall, h⟩
    · cases h
  · intro ⟨k', n, hcall, hp⟩
    rw [hcall]
    exact hp

/-- The program stores a string at `addr` and is about to call `SC_Exec` on it. -/
def callSample (addr : BitVec 32) (bytes : List (BitVec 32)) : Event :=
  .instr (bytes.mapIdx fun i b => .write (addr + BitVec.ofNat 32 i) .byte b)
    (Registers.write (Registers.write (fun _ => 0) 2 scExec) 4 addr)

/-- No choice is made in anybody's favour. -/
def plainChoices : Choices := ⟨fun _ => 0, false, fun _ => false, false⟩

/-- The program calls `SC_Exec` for the file there is, with the name in memory. -/
theorem exec_truthful_sample : ∃ (k0 k k' : Kernel) (n : Next), boot (.sample 2) = .ok k0 ∧
    Run step k0 [.fault 1024 0, callSample 1024 [97, 0]] k ∧
    k.execCall plainChoices = .ok (.returned k' n) ∧ k.TellsTruth [97] k' := by
  have hdemo : (Config.sample 2).reaches [.fault 1024 0, callSample 1024 [97, 0]] (fun k =>
      decide (k.here = .user ∧ k.trap.registers 2 = scExec ∧ k.threadID < 2147483648 ∧
        ¬ k.trap.Faults (k.trap.registers 4)) && k.trap.peeks (k.trap.registers 4) [97] &&
      (k.exe [97]).any fun x =>
        (pagesNeeded (NoffHeader.decode x.bytes)).toOption.any fun _ => true) = true := by
    decide +kernel
  obtain ⟨k0, k, hboot, hrun, hp⟩ := Config.reaches_iff.mp hdemo
  simp only [Bool.and_eq_true, decide_eq_true_eq] at hp
  obtain ⟨⟨⟨hu, hcall, hid, hflt⟩, hpeek⟩, hp⟩ := hp
  have hopens : ∃ x numPages, k.exe [97] = some x ∧
      pagesNeeded (NoffHeader.decode x.bytes) = .ok numPages := by
    obtain ⟨x, hx, hp⟩ := (Option.any_eq_true _ _).mp hp
    obtain ⟨numPages, hn, -⟩ := exists_ok_of_any hp
    exact ⟨x, numPages, hx, hn⟩
  have hreach : Reachable k := ⟨_, _, k0, hboot, hrun⟩
  have hfirst : k.trap.bringIn (k.trap.registers 4) (plainChoices.random 0) = .ok k.trap :=
    if_neg hflt
  obtain ⟨hreads, hall⟩ := peeks_sound hpeek
  have hiff := exec_truthful_iff hreach hu hcall hid (by decide) (by decide) hfirst hreads
  obtain ⟨k', n, hend, ht⟩ := hiff.mpr ⟨hopens, hall⟩
  exact ⟨k0, k, k', n, hboot, hrun, hend, ht⟩

/-- For a file that does not exist the result is the number of the call, which
is the ID of a process here. For a file that does, whose name ends in a page
that is not in memory, the result is the same and no process is made. -/
theorem exec_result_stale :
    (∃ (k0 k k' : Kernel) (n : Next), boot (.sample 2) = .ok k0 ∧
      Run step k0 (.fault 1024 0 :: execSample ++ execSample ++ [callSample 1024 [98, 0]]) k ∧
      k.exe [98] = none ∧ k.execCall plainChoices = .ok (.returned k' n) ∧
      ¬ (k'.registers 2).toInt < 0 ∧
      ∃ T, k.live 2 = some T ∧ k.currentThread ≠ 2 ∧ k'.registers 2 = BitVec.ofNat 32 T.ID) ∧
    ∃ (k0 k k' : Kernel) (n : Next), boot (.sample 2) = .ok k0 ∧
      Run step k0 [.fault 1024 0, callSample 1279 [97]] k ∧ (k.exe [97]).isSome ∧
      k.execCall plainChoices = .ok (.returned k' n) ∧ ¬ k.TellsTruth [97] k' := by
  constructor
  · have hdemo : (Config.sample 2).reaches
        (.fault 1024 0 :: execSample ++ execSample ++ [callSample 1024 [98, 0]]) (fun k =>
          decide ((k.exe [98]).isNone) && k.answers plainChoices fun k' =>
            decide (¬ (k'.registers 2).toInt < 0 ∧ k.currentThread ≠ 2) &&
            (k.live 2).any fun T => decide (k'.registers 2 = BitVec.ofNat 32 T.ID)) = true := by
      decide +kernel
    obtain ⟨k0, k, hboot, hrun, hp⟩ := Config.reaches_iff.mp hdemo
    obtain ⟨hnone, hp⟩ := Bool.and_eq_true_iff.mp hp
    obtain ⟨k', n, hcall, hp⟩ := answers_iff.mp hp
    obtain ⟨hk', hp⟩ := Bool.and_eq_true_iff.mp hp
    obtain ⟨hneg, hcur⟩ := of_decide_eq_true hk'
    obtain ⟨T, hT, hp⟩ := (Option.any_eq_true _ _).mp hp
    exact ⟨k0, k, k', n, hboot, hrun, Option.isNone_iff_eq_none.mp (of_decide_eq_true hnone),
      hcall, hneg, T, hT, hcur, of_decide_eq_true hp⟩
  · have hdemo : (Config.sample 2).reaches [.fault 1024 0, callSample 1279 [97]] (fun k =>
        decide ((k.exe [97]).isSome) && k.answers plainChoices fun k' =>
          decide (k'.registers 2 = scExec ∧ k'.activeThreads = k.activeThreads)) = true := by
      decide +kernel
    obtain ⟨k0, k, hboot, hrun, hp⟩ := Config.reaches_iff.mp hdemo
    obtain ⟨hsome, hp⟩ := Bool.and_eq_true_iff.mp hp
    obtain ⟨k', n, hcall, hp⟩ := answers_iff.mp hp
    obtain ⟨hresult, hactive⟩ := of_decide_eq_true hp
    exact ⟨k0, k, k', n, hboot, hrun, of_decide_eq_true hsome, hcall,
      Unanswered.not_tellsTruth ⟨hresult, hactive⟩⟩

end Kernel
end Nachos
