import Nachos.Userprog.FrameSteps

/-! What `loadPage` puts into memory. `buildPage_eq_ok` gives every byte the
first-load branch leaves, inside the frame and behind it; compared with the
program image the header describes, the difference is the overrun of each
segment by up to a page: `strayByte` inside the page, `Spills` behind it. -/

namespace Nachos
open Lib

section CopySegment
variable {seg : Segment} {file : List UInt8} {v f : Nat} {mem mem' : Nat → UInt8}

theorem copySegment_eq_ok (hf : f < numPhysPages) (h : copySegment seg file v f mem = .ok mem') :
    seg.NoOverflow v ∧ seg.Seeks v ∧ (∀ i, i < pageSize * f → mem' i = mem i) ∧
      ∀ j : Nat, mem' (pageSize * f + j) =
        (seg.copied file v (v * pageSize + j)).getD (mem (pageSize * f + j)) := by
  have ho : seg.NoOverflow v := by
    by_contra ho
    have hs : 0 < seg.size.toInt := by
      by_contra hs
      exact ho fun h => absurd h hs
    rw [copySegment_undefined hs ho] at h
    cases h
  have hk : seg.Seeks v := by
    by_contra hk
    have hs : 0 < seg.size.toInt := by
      by_contra hs
      exact hk fun h => absurd h hs
    rw [copySegment_lseek hf hs ho hk] at h
    cases h
  obtain ⟨mem1, h1, hlow, hhigh⟩ := @copySegment_ok seg file v f mem hf ho hk
  cases h1.symm.trans h
  exact ⟨ho, hk, hlow, hhigh⟩

end CopySegment

namespace AddrSpace

/-- Neither copy for page `v` overflows or seeks outside the file's range. -/
def Buildable (S : AddrSpace) (v : Nat) : Prop :=
  S.noffH.code.NoOverflow v ∧ S.noffH.code.Seeks v ∧
    S.noffH.initData.NoOverflow v ∧ S.noffH.initData.Seeks v

instance (S : AddrSpace) (v : Nat) : Decidable (S.Buildable v) :=
  inferInstanceAs (Decidable (_ ∧ _ ∧ _ ∧ _))

/-- What the copies for page `v` write for address `a`: the data wins. -/
def built (S : AddrSpace) (v : Nat) (a : Int) : Option UInt8 :=
  (S.noffH.initData.copied S.file v a).or (S.noffH.code.copied S.file v a)

/-- The byte of the executable for address `a`: of the initialised data, else of the
code, else zero. -/
def executableByte (S : AddrSpace) (a : Int) : UInt8 :=
  ((S.noffH.initData.reachedByte S.file a).or (S.noffH.code.reachedByte S.file a)).getD 0

/-- The bytes of the executable for page `v`. -/
def pageImage (S : AddrSpace) (v : Nat) : List UInt8 :=
  (List.range pageSize).map fun j : Nat => S.executableByte (v * pageSize + j)

variable {S : AddrSpace} {v f : Nat} {mem mem' : Nat → UInt8}

/-- Inside the page the copies write the bytes of the executable. -/
theorem built_getD {a : Int} (ha : a < (v + 1) * pageSize) :
    (S.built v a).getD 0 = S.executableByte a := by
  unfold built executableByte
  rw [Segment.copied_in_page ha, Segment.copied_in_page ha]

theorem buildPage_eq_ok (hf : f < numPhysPages) (h : S.buildPage v f mem = .ok mem') :
    S.Buildable v ∧ (∀ i, i < pageSize * f → mem' i = mem i) ∧
      ∀ j : Nat, mem' (pageSize * f + j) = (S.built v (v * pageSize + j)).getD
        (if j < pageSize then 0 else mem (pageSize * f + j)) := by
  unfold buildPage at h
  obtain ⟨mem1, h1, h⟩ := bind_eq_ok.mp h
  obtain ⟨ho1, hk1, hlow1, hhigh1⟩ := copySegment_eq_ok hf h1
  obtain ⟨ho2, hk2, hlow2, hhigh2⟩ := copySegment_eq_ok hf h
  refine ⟨⟨ho1, hk1, ho2, hk2⟩, fun i hi => ?_, fun j => ?_⟩
  · rw [hlow2 i hi, hlow1 i hi, overlay_of_lt hi]
  · have hzero : overlay mem (pageSize * f) (List.replicate pageSize 0) (pageSize * f + j) =
        if j < pageSize then 0 else mem (pageSize * f + j) := by
      have := overlay_base mem (pageSize * f) 0 j (List.replicate pageSize 0)
      rw [Nat.add_zero, if_pos (Nat.zero_le j), Nat.sub_zero, List.getElem?_replicate] at this
      rw [this]
      split <;> rfl
    rw [hhigh2, hhigh1, hzero]
    unfold built
    cases S.noffH.initData.copied S.file v (v * pageSize + j) <;> rfl

theorem buildPage_ok (hf : f < numPhysPages) (hb : S.Buildable v) (mem : Nat → UInt8) :
    ∃ mem', S.buildPage v f mem = .ok mem' := by
  obtain ⟨ho1, hk1, ho2, hk2⟩ := hb
  obtain ⟨mem1, h1, -⟩ := @copySegment_ok _ S.file v f
    (overlay mem (pageSize * f) (List.replicate pageSize 0)) hf ho1 hk1
  obtain ⟨mem2, h2, -⟩ := @copySegment_ok _ S.file v f mem1 hf ho2 hk2
  exact ⟨mem2, bind_eq_ok.mpr ⟨mem1, h1, h2⟩⟩

theorem buildPage_byte (hf : f < numPhysPages) (h : S.buildPage v f mem = .ok mem') {j : Nat}
    (hj : j < pageSize) : mem' (pageSize * f + j) = S.executableByte (v * pageSize + j) := by
  rw [(buildPage_eq_ok hf h).2.2 j, if_pos hj, built_getD]
  simp only [pageSize] at *
  omega

theorem frameBytes_buildPage (hf : f < numPhysPages) (h : S.buildPage v f mem = .ok mem') :
    frameBytes mem' f = S.pageImage v :=
  List.map_congr_left fun _ hj => buildPage_byte hf h (List.mem_range.mp hj)

/-- The copies write behind the page exactly if a segment spills. -/
theorem built_behind_iff (hb : S.Buildable v) :
    (∃ (j : Nat) (b : UInt8), pageSize ≤ j ∧ S.built v (v * pageSize + j) = some b) ↔
      S.noffH.code.Spills S.file v ∨ S.noffH.initData.Spills S.file v := by
  constructor
  · intro ⟨j, b, hj, hbuilt⟩
    have ha : ((v + 1) * pageSize : Int) ≤ v * pageSize + j := by simp only [pageSize] at *; omega
    rcases Option.or_eq_some_iff.mp hbuilt with h | ⟨-, h⟩
    · exact .inr (.of_copied hb.2.2.2 ha h)
    · exact .inl (.of_copied hb.2.1 ha h)
  · intro h
    suffices hex : ∃ b, S.built v ((v + 1) * pageSize) = some b by
      obtain ⟨b, hbuilt⟩ := hex
      refine ⟨pageSize, b, Nat.le_refl _, ?_⟩
      rw [← hbuilt, Int.add_mul, Int.one_mul]
    unfold built
    rcases h with h | h
    · obtain ⟨b, hc⟩ := h.copied
      rw [hc]
      cases S.noffH.initData.copied S.file v ((v + 1) * pageSize) with
      | none => exact ⟨b, rfl⟩
      | some b' => exact ⟨b', rfl⟩
    · obtain ⟨b, hc⟩ := h.copied
      rw [hc]
      exact ⟨b, rfl⟩

/-- Whatever memory holds, a first load changes nothing outside the frame,
exactly if no segment spills: a byte written behind the frame is a change where
memory holds another. -/
theorem buildPage_outside_iff (hf : f < numPhysPages) (hb : S.Buildable v) :
    (∀ mem mem', S.buildPage v f mem = .ok mem' →
        ∀ i, i < pageSize * f ∨ pageSize * f + pageSize ≤ i → mem' i = mem i) ↔
      ¬ S.noffH.code.Spills S.file v ∧ ¬ S.noffH.initData.Spills S.file v := by
  rw [← not_or, ← built_behind_iff hb]
  constructor
  · intro h ⟨j, b, hj, hbuilt⟩
    obtain ⟨mem', hmem⟩ := buildPage_ok hf hb fun _ => b + 1
    have hkept := h _ _ hmem (pageSize * f + j) (.inr (by omega))
    rw [(buildPage_eq_ok hf hmem).2.2 j, hbuilt] at hkept
    have hne : b ≠ b + 1 := by simp
    exact hne hkept
  · intro h mem mem' hmem i hi
    obtain ⟨-, hlow, hhigh⟩ := buildPage_eq_ok hf hmem
    rcases hi with hi | hi
    · exact hlow i hi
    · obtain ⟨j, rfl⟩ := Nat.exists_eq_add_of_le (Nat.le_of_add_right_le hi)
      have hj : pageSize ≤ j := by omega
      rw [hhigh j, if_neg (by omega)]
      cases hbuilt : S.built v (v * pageSize + j) with
      | none => rfl
      | some b => exact absurd ⟨j, b, hj, hbuilt⟩ h

/-! ## The program image -/

/-- The byte of the program at address `a`, as the header places it: code,
initialised data, or zero. A segment reads as zero where the file ends early. -/
def programByte (S : AddrSpace) (a : Int) : UInt8 :=
  if S.noffH.code.Contains a then (S.noffH.code.fileByte S.file a).getD 0
  else if S.noffH.initData.Contains a then (S.noffH.initData.fileByte S.file a).getD 0
  else 0

/-- What the copies bring to address `a` from behind the end of a segment. -/
def strayByte (S : AddrSpace) (a : Int) : Option UInt8 :=
  if S.noffH.initData.Overruns a ∧ (S.noffH.initData.fileByte S.file a).isSome then
    S.noffH.initData.fileByte S.file a
  else if S.noffH.code.Overruns a ∧
      ¬ (S.noffH.initData.Contains a ∧ (S.noffH.initData.fileByte S.file a).isSome) then
    S.noffH.code.fileByte S.file a
  else none

/-- The stray bytes of page `v` are those of the program. -/
def Harmless (S : AddrSpace) (v : Nat) : Prop :=
  ∀ j < pageSize, ∀ b, S.strayByte (v * pageSize + j) = some b →
    b = S.programByte (v * pageSize + j)

/-- With disjoint segments a byte of the executable is the program's exactly if what
strays there does no harm. -/
theorem executableByte_eq_iff {a : Int} (hdisjoint : ∀ a, S.noffH.code.Contains a →
    ¬ S.noffH.initData.Contains a) :
    S.executableByte a = S.programByte a ↔
      ∀ b, S.strayByte a = some b → b = S.programByte a := by
  have hnot {s : Segment} (h : s.Contains a) : ¬ s.Overruns a := by
    rintro ⟨-, hstop, -⟩
    exact absurd h.2 (by omega)
  unfold executableByte Segment.reachedByte strayByte programByte
  -- the data, at `a` or straying there, is copied last
  by_cases hd : S.noffH.initData.Overruns a
  · have hdc : ¬ S.noffH.initData.Contains a := fun h => hnot h hd
    cases hb : S.noffH.initData.fileByte S.file a with
    | some b => simp [hd, hdc]
    | none =>
      by_cases hc : S.noffH.code.Overruns a
      · have hcc : ¬ S.noffH.code.Contains a := fun h => hnot h hc
        cases S.noffH.code.fileByte S.file a <;> simp [hd, hdc, hc, hcc]
      · by_cases hcc : S.noffH.code.Contains a <;> simp [hd, hdc, hc, hcc]
  · by_cases hdc : S.noffH.initData.Contains a
    · have hcc : ¬ S.noffH.code.Contains a := fun h => hdisjoint a h hdc
      cases hb : S.noffH.initData.fileByte S.file a with
      | some b => simp [hd, hdc, hcc]
      | none =>
        by_cases hc : S.noffH.code.Overruns a
        · cases S.noffH.code.fileByte S.file a <;> simp [hd, hdc, hc, hcc]
        · simp [hd, hdc, hc, hcc]
    · by_cases hc : S.noffH.code.Overruns a
      · have hcc : ¬ S.noffH.code.Contains a := fun h => hnot h hc
        cases S.noffH.code.fileByte S.file a <;> simp [hd, hdc, hc, hcc]
      · by_cases hcc : S.noffH.code.Contains a <;> simp [hd, hdc, hc, hcc]

/-- What `loadPage` leaves in memory for page `v` and frame `f`, given the
swap file. -/
def fillMemory (S : AddrSpace) (swap : List UInt8) (v f : Nat) (mem : Nat → UInt8) :
    Except Fault (Nat → UInt8) :=
  if S.swapped v then
    .ok (overlay mem (pageSize * f) (readBytes swap (v * pageSize) pageSize))
  else S.buildPage v f mem

theorem buildPage_congr {S' : AddrSpace} (hfixed : S'.fixed = S.fixed) (v f : Nat)
    (mem : Nat → UInt8) : S'.buildPage v f mem = S.buildPage v f mem := by
  have hfile : S'.file = S.file := (congrArg AddrSpace.file hfixed :)
  have hnoff : S'.noffH = S.noffH := (congrArg AddrSpace.noffH hfixed :)
  unfold buildPage
  rw [hfile, hnoff]

theorem fillMemory_congr {S' : AddrSpace} (hfixed : S'.fixed = S.fixed)
    (hsw : S'.swapped v = S.swapped v) (swap : List UInt8) (f : Nat) (mem : Nat → UInt8) :
    S'.fillMemory swap v f mem = S.fillMemory swap v f mem := by
  unfold fillMemory
  rw [hsw, buildPage_congr hfixed]

/-- A page that comes from the swap file keeps, where the file is short, what
the frame had. Nothing outside the frame changes. -/
theorem fillMemory_swapped {swap : List UInt8} (hsw : S.swapped v = true) (f : Nat)
    (mem : Nat → UInt8) : ∃ mem', S.fillMemory swap v f mem = .ok mem' ∧
      (∀ i, i < pageSize * f ∨ pageSize * f + pageSize ≤ i → mem' i = mem i) ∧
      ∀ j < pageSize, mem' (pageSize * f + j) =
        (swap[v * pageSize + j]?).getD (mem (pageSize * f + j)) := by
  refine ⟨_, if_pos hsw, fun i hi => ?_, fun j hj => ?_⟩
  · rcases hi with hi | hi
    · exact overlay_of_lt hi
    · have := readBytes_length_le swap (v * pageSize) pageSize
      exact overlay_of_le (by omega)
  · have h := overlay_base mem (pageSize * f) 0 j (readBytes swap (v * pageSize) pageSize)
    rw [Nat.add_zero, if_pos (Nat.zero_le j), Nat.sub_zero, readBytes_getElem?, if_pos hj] at h
    exact h

end AddrSpace

namespace Kernel

variable {k k' k1 : Kernel} {s : SpacePtr} {S : AddrSpace} {v f random : Nat} {addr : BitVec 32}

theorem fillPage_memory {w : Int} (hS : k.space s = some S) (hw : w = v) (hv : v < S.numPages) :
    (k.fillPage s w f).map mainMemory =
      S.fillMemory (k.hostData S.swapFile) v f k.mainMemory := by
  subst hw
  unfold fillPage AddrSpace.fillMemory
  rw [hS]
  dsimp only
  rw [if_pos ⟨Int.natCast_nonneg v, by exact_mod_cast hv⟩]
  simp only [Int.toNat_natCast, AddrSpace.setEntry]
  by_cases hsw : S.swapped v = true
  · simp only [hsw, if_true]
    rfl
  · simp only [hsw, Bool.false_eq_true, if_false]
    change (S.buildPage v f k.mainMemory >>= _).map mainMemory = _
    cases S.buildPage v f k.mainMemory <;> rfl

theorem swapout_mainMemory (h : k.swapout s f = .ok k') : k'.mainMemory = k.mainMemory := by
  obtain ⟨S, page, -, -, rfl⟩ := swapout_cases h
  split <;> rfl

theorem selectPage_mainMemory (h : k.selectPage random = .ok (f, k')) :
    k'.mainMemory = k.mainMemory := by
  rcases selectPage_cases h with ⟨-, rfl⟩ | ⟨-, k1, s, hv, -, hs⟩
  · rfl
  · rw [swapout_mainMemory hs]
    rcases victim_cases hv with ⟨-, -, rfl⟩ | ⟨-, -, rfl⟩
    · rfl
    · rfl

/-- `loadPage` with its frame chosen: what it leaves in memory depends on the
page, the frame, the swap file and the memory only. -/
theorem loadPage_memory (hsel : k.selectPage random = .ok (f, k1))
    (hlock : k.swapChoice = 1 → (k.pageLock f).value ≠ 0) (hS : k1.space s = some S)
    (hpage : pageOfAddr addr = v) (hv : v < S.numPages) :
    (k.loadPage s addr random).map mainMemory =
      S.fillMemory (k1.hostData S.swapFile) v f k.mainMemory := by
  have hlocks : k1.pageLock = k.pageLock :=
    (congrArg Kernel.pageLock (selectPage_memoryOnly hsel).1.rest :)
  unfold loadPage
  rw [hsel, ok_bind, ← selectPage_mainMemory hsel]
  dsimp only
  split
  · rename_i hfifo
    rw [hlocks, if_neg (hlock hfifo)]
    have hfill := @fillPage_memory ((k1.appendPage f).lockTake f) s S v f _ hS hpage hv
    cases hres : ((k1.appendPage f).lockTake f).fillPage s (pageOfAddr addr) f with
    | error e =>
      rw [hres] at hfill
      exact hfill
    | ok k2 =>
      rw [hres] at hfill
      obtain ⟨st, r, l, hV⟩ := k2.lockV_eq f
      rw [ok_bind, hV]
      exact hfill
  · exact fillPage_memory hS hpage hv

/-- The choice of a frame leaves a page without a frame as it was. -/
theorem selectPage_unmapped (hsel : k.selectPage random = .ok (f, k1)) (hS : k.space s = some S)
    (hv : v < S.numPages) (hmap : (S.pageTable v).physicalPage = -1) :
    ∃ S1, k1.space s = some S1 ∧ S1.fixed = S.fixed ∧ S1.swapped v = S.swapped v := by
  obtain ⟨S1, hS1, hfixed⟩ := (selectPage_memoryOnly hsel).1.space_of hS
  have hplace : k.frames.place s v = some ⟨-1, (S.pageTable v).valid, S.swapped v⟩ :=
    frames_place.mpr ⟨S, hS, AddrSpace.place_eq_some.mpr ⟨hv, by rw [hmap]⟩⟩
  have hplace1 : k1.frames.place s v = k.frames.place s v := by
    rcases selectPage_frames hsel with ⟨-, h⟩ | ⟨-, s', v', p, hp, hpf, -, h⟩
    · rw [h]
    · have hne : ¬ (s = s' ∧ v = v') := by
        rintro ⟨rfl, rfl⟩
        cases hplace.symm.trans hp
        have hneg : (-1 : Int) = f := hpf
        omega
      rw [h]
      exact (FrameTable.setPlace_place _ _ _ _ _ _).trans (if_neg hne)
  obtain ⟨S2, hS2, hp2⟩ := frames_place.mp (hplace1.trans hplace)
  cases hS1.symm.trans hS2
  exact ⟨S1, hS1, hfixed, (congrArg Place.swapped (AddrSpace.place_eq_some.mp hp2).2).symm⟩

/-- Whether `loadPage` returns, and with what in memory. -/
theorem exists_loadPage_iff {P : (Nat → UInt8) → Prop} (hsel : k.selectPage random = .ok (f, k1))
    (hlock : k.swapChoice = 1 → (k.pageLock f).value ≠ 0) (hS : k1.space s = some S)
    (hpage : pageOfAddr addr = v) (hv : v < S.numPages) :
    (∃ k', k.loadPage s addr random = .ok k' ∧ P k'.mainMemory) ↔
      ∃ mem', S.fillMemory (k1.hostData S.swapFile) v f k.mainMemory = .ok mem' ∧ P mem' := by
  rw [← loadPage_memory hsel hlock hS hpage hv]
  cases k.loadPage s addr random with
  | error e => simp [Except.map]
  | ok k' => simp [Except.map]

/-! ## Concrete loads -/

/-- `loadPage` returns: `p` is told the frame and the states after its choice
and at the end. -/
def loads (k : Kernel) (s : SpacePtr) (addr : BitVec 32) (random : Nat)
    (p : Nat → Kernel → Kernel → Bool) : Bool :=
  match k.selectPage random, k.loadPage s addr random with
  | .ok (f, k1), .ok k' => p f k1 k'
  | _, _ => false

theorem loads_iff {p : Nat → Kernel → Kernel → Bool} : k.loads s addr random p = true ↔
    ∃ f k1 k', k.selectPage random = .ok (f, k1) ∧ k.loadPage s addr random = .ok k' ∧
      p f k1 k' = true := by
  unfold loads
  constructor
  · intro h
    split at h
    · rename_i f k1 k' hsel hload
      exact ⟨f, k1, k', hsel, hload, h⟩
    · cases h
  · intro ⟨f, k1, k', hsel, hload, hp⟩
    rw [hsel, hload]
    exact hp

/-- The first load of a page gives the program's bytes exactly if it is taken
for one, the copies can be made, and what they bring from behind the segments
does no harm; or if it is mistaken for a reload and the swap file, with the old
contents of the frame where it is short, happens to have the program's bytes. -/
theorem first_load_iff (hS : k.space s = some S) (hv : v < S.numPages)
    (hmap : (S.pageTable v).physicalPage = -1)
    (hdisjoint : ∀ a, S.noffH.code.Contains a → ¬ S.noffH.initData.Contains a)
    (hpage : pageOfAddr addr = v) (hsel : k.selectPage random = .ok (f, k1))
    (hlock : k.swapChoice = 1 → (k.pageLock f).value ≠ 0) :
    (∃ k', k.loadPage s addr random = .ok k' ∧ ∀ j < pageSize,
        k'.mainMemory (pageSize * f + j) = S.programByte (v * pageSize + j)) ↔
      (S.swapped v = false ∧ S.Buildable v ∧ S.Harmless v) ∨
      (S.swapped v = true ∧ ∀ j < pageSize,
        ((k1.hostData S.swapFile)[v * pageSize + j]?).getD (k.mainMemory (pageSize * f + j)) =
          S.programByte (v * pageSize + j)) := by
  obtain ⟨S1, hS1, hfixed, hsw⟩ := selectPage_unmapped hsel hS hv hmap
  have hswapFile : S1.swapFile = S.swapFile := (congrArg AddrSpace.swapFile hfixed :)
  have hpages : S1.numPages = S.numPages := (congrArg AddrSpace.numPages hfixed :)
  rw [exists_loadPage_iff (P := fun m => ∀ j < pageSize,
    m (pageSize * f + j) = S.programByte (v * pageSize + j)) hsel hlock hS1 hpage (hpages ▸ hv),
    AddrSpace.fillMemory_congr hfixed hsw, hswapFile]
  cases hflag : S.swapped v with
  | true =>
    obtain ⟨mem', hmem, -, hbyte⟩ := @AddrSpace.fillMemory_swapped S v (k1.hostData S.swapFile)
      hflag f k.mainMemory
    rw [hmem]
    simp only [Except.ok.injEq, exists_eq_left', reduceCtorEq, false_and, false_or, true_and]
    exact forall₂_congr fun j hj => by rw [hbyte j hj]
  | false =>
    have hfill : S.fillMemory (k1.hostData S.swapFile) v f k.mainMemory =
        S.buildPage v f k.mainMemory := if_neg (by rw [hflag]; decide)
    rw [hfill]
    simp only [reduceCtorEq, false_and, or_false, true_and]
    have hf := (selectPage_memoryOnly hsel).2
    have hbytes {mem' : Nat → UInt8} (h : S.buildPage v f k.mainMemory = .ok mem') :
        (∀ j < pageSize, mem' (pageSize * f + j) = S.programByte (v * pageSize + j)) ↔
          S.Harmless v := by
      refine forall₂_congr fun j hj => ?_
      rw [AddrSpace.buildPage_byte hf h hj]
      exact AddrSpace.executableByte_eq_iff hdisjoint
    constructor
    · intro ⟨mem', h, hp⟩
      exact ⟨(AddrSpace.buildPage_eq_ok hf h).1, (hbytes h).mp hp⟩
    · intro ⟨hb, hh⟩
      obtain ⟨mem', h⟩ := AddrSpace.buildPage_ok hf hb k.mainMemory
      exact ⟨mem', h, (hbytes h).mpr hh⟩

/-- Page 2 of the sample program is data from one end to the other. -/
theorem first_load_sample : ∃ (k0 k' : Kernel) (S : AddrSpace), boot (.sample 2) = .ok k0 ∧
    k0.space 0 = some S ∧ k0.loadPage 0 512 0 = .ok k' ∧
    ∀ j < pageSize, k'.mainMemory j = S.programByte (512 + j) := by
  have hdemo : (Config.sample 2).boots (fun k0 => (k0.space 0).any fun (S : AddrSpace) =>
      k0.loads 0 512 0 fun f _ _ => decide (f = 0 ∧ k0.swapChoice = 2 ∧
          2 < S.numPages ∧ (S.pageTable 2).physicalPage = -1 ∧ S.swapped 2 = false ∧
          S.noffH.code.stop ≤ S.noffH.initData.start ∧ S.Buildable 2 ∧
          ∀ j < pageSize, S.strayByte ((2 : Nat) * pageSize + j) = none)) = true := by
    decide +kernel
  obtain ⟨k0, hboot, hp⟩ := Config.boots_iff.mp hdemo
  obtain ⟨S, hS, hp⟩ := (Option.any_eq_true _ _).mp hp
  obtain ⟨f, k1, k', hsel, hload, hp⟩ := loads_iff.mp hp
  obtain ⟨rfl, hpolicy, hv, hmap, hsw, hdisjoint, hb, hstray⟩ := of_decide_eq_true hp
  have hpage : pageOfAddr 512 = (2 : Nat) := rfl
  have hiff := first_load_iff hS hv hmap
    (fun a hc hd => absurd (hc.2.trans_le (hdisjoint.trans hd.1)) (Int.lt_irrefl a)) hpage hsel
    (fun h => absurd (hpolicy.symm.trans h) (by decide))
  obtain ⟨k2, hload2, hbytes⟩ := hiff.mpr (.inl ⟨hsw, hb, fun j hj b h => by
    rw [hstray j hj] at h; cases h⟩)
  cases hload.symm.trans hload2
  refine ⟨k0, k', S, hboot, hS, hload, fun j hj => ?_⟩
  have := hbytes j hj
  rwa [Nat.mul_zero, Nat.zero_add] at this

/-- The code of the sample program is eight bytes at address 0. Loading page 0
puts the data that follows it in the file behind it. -/
theorem first_load_stray : ∃ (k0 k1 k' : Kernel) (S : AddrSpace), boot (.sample 2) = .ok k0 ∧
    k0.space 0 = some S ∧ (S.pageTable 0).physicalPage = -1 ∧ S.swapped 0 = false ∧
    0 ≤ S.noffH.code.start ∧ S.noffH.code.stop ≤ S.noffH.initData.start ∧
    S.noffH.initData.stop ≤ S.numPages * pageSize ∧ k0.selectPage 0 = .ok (0, k1) ∧
    k0.loadPage 0 0 0 = .ok k' ∧ S.programByte 8 = 0 ∧ k'.mainMemory 8 = 7 := by
  have hdemo : (Config.sample 2).boots (fun k0 => (k0.space 0).any fun (S : AddrSpace) =>
      k0.loads 0 0 0 fun f _ k' => decide (f = 0 ∧
          (S.pageTable 0).physicalPage = -1 ∧ S.swapped 0 = false ∧
          0 ≤ S.noffH.code.start ∧ S.noffH.code.stop ≤ S.noffH.initData.start ∧
          S.noffH.initData.stop ≤ S.numPages * pageSize ∧ S.programByte 8 = 0 ∧
          k'.mainMemory 8 = 7)) = true := by
    decide +kernel
  obtain ⟨k0, hboot, hp⟩ := Config.boots_iff.mp hdemo
  obtain ⟨S, hS, hp⟩ := (Option.any_eq_true _ _).mp hp
  obtain ⟨f, k1, k', hsel, hload, hp⟩ := loads_iff.mp hp
  obtain ⟨rfl, hmap, hsw, hc, hd, hn, h8, h7⟩ := of_decide_eq_true hp
  exact ⟨k0, k1, k', S, hboot, hS, hmap, hsw, hc, hd, hn, hsel, hload, h8, h7⟩

/-! ## Outside the frame -/

theorem swapout_withMemory (h : k.swapout s f = .ok k') (mem : Nat → UInt8) :
    ∃ data, { k with mainMemory := mem }.swapout s f =
      .ok { k' with mainMemory := mem, hostData := data } := by
  obtain ⟨S, page, hS, hp, rfl⟩ := swapout_cases h
  unfold swapout
  dsimp only
  rw [hS]
  dsimp only
  rw [hp]
  dsimp only
  split
  · exact ⟨_, rfl⟩
  · exact ⟨_, rfl⟩

/-- What memory holds has no say in the choice of the frame; it only goes to
the swap file. -/
theorem selectPage_withMemory (h : k.selectPage random = .ok (f, k1)) (mem : Nat → UInt8) :
    ∃ data, { k with mainMemory := mem }.selectPage random =
      .ok (f, { k1 with mainMemory := mem, hostData := data }) := by
  have hfind : { k with mainMemory := mem }.find = k.find := rfl
  unfold selectPage
  rw [hfind]
  rcases selectPage_cases h with ⟨hf, rfl⟩ | ⟨hn, k2, s, hv, ho, hs⟩
  · rw [hf]
    exact ⟨k.hostData, rfl⟩
  · have hvictim : { k with mainMemory := mem }.victim random =
        .ok (f, { k2 with mainMemory := mem }) := by
      unfold victim
      rcases victim_cases hv with ⟨hfifo, rfl, rfl⟩ | ⟨hrandom, rfl, rfl⟩
      · exact if_pos hfifo
      · have hfifo : k2.swapChoice ≠ 1 := by rw [hrandom]; decide
        exact (if_neg hfifo).trans (if_pos hrandom)
    have howner : { k2 with mainMemory := mem }.owner f = .ok s := ho
    obtain ⟨data, hout⟩ := swapout_withMemory hs mem
    refine ⟨data, ?_⟩
    rw [hn]
    dsimp only
    rw [hvictim, ok_bind]
    dsimp only
    rw [howner, ok_bind, hout, ok_bind]

/-- A page fault that is served leaves memory outside the chosen frame alone,
whatever it holds, exactly if the page comes from the swap file or neither
segment spills. -/
theorem loadPage_outside_iff (hsel : k.selectPage random = .ok (f, k1))
    (hlock : k.swapChoice = 1 → (k.pageLock f).value ≠ 0) (hS : k1.space s = some S)
    (hpage : pageOfAddr addr = v) (hv : v < S.numPages)
    (hserved : ∃ k', k.loadPage s addr random = .ok k') :
    (∀ mem k', { k with mainMemory := mem }.loadPage s addr random = .ok k' →
        ∀ i, i < pageSize * f ∨ pageSize * f + pageSize ≤ i → k'.mainMemory i = mem i) ↔
      S.swapped v = true ∨
        ¬ S.noffH.code.Spills S.file v ∧ ¬ S.noffH.initData.Spills S.file v := by
  have hf := (selectPage_memoryOnly hsel).2
  have hmemory (mem : Nat → UInt8) : ∃ swap,
      ({ k with mainMemory := mem }.loadPage s addr random).map mainMemory =
        S.fillMemory swap v f mem := by
    obtain ⟨data, hsel'⟩ := selectPage_withMemory hsel mem
    exact ⟨data S.swapFile, loadPage_memory hsel' hlock hS hpage hv⟩
  cases hflag : S.swapped v with
  | true =>
    refine iff_of_true (fun mem k' h i hi => ?_) (.inl rfl)
    obtain ⟨swap, hmem⟩ := hmemory mem
    obtain ⟨mem', hfill, hout, -⟩ := @AddrSpace.fillMemory_swapped S v swap hflag f mem
    rw [h, hfill] at hmem
    cases hmem
    exact hout i hi
  | false =>
    have hfill (swap : List UInt8) (mem : Nat → UInt8) :
        S.fillMemory swap v f mem = S.buildPage v f mem := if_neg (by rw [hflag]; decide)
    have hb : S.Buildable v := by
      obtain ⟨k', h⟩ := hserved
      have hmem := loadPage_memory hsel hlock hS hpage hv
      rw [h, hfill] at hmem
      exact (AddrSpace.buildPage_eq_ok hf hmem.symm).1
    simp only [reduceCtorEq, false_or]
    rw [← AddrSpace.buildPage_outside_iff hf hb]
    refine forall_congr' fun mem => ?_
    obtain ⟨swap, hmem⟩ := hmemory mem
    rw [hfill] at hmem
    constructor
    · intro h mem' hbuild
      cases hload : { k with mainMemory := mem }.loadPage s addr random with
      | error e =>
        rw [hload, hbuild] at hmem
        cases hmem
      | ok k' =>
        rw [hload, hbuild] at hmem
        cases hmem
        exact h k' hload
    · intro h k' hload
      rw [hload] at hmem
      exact h _ hmem.symm

/-- Loading page 2 of the sample program. -/
theorem loadPage_outside_sample : ∃ (k0 k' : Kernel), boot (.sample 2) = .ok k0 ∧
    k0.loadPage 0 512 0 = .ok k' ∧ ∀ i, pageSize ≤ i → k'.mainMemory i = k0.mainMemory i := by
  have hdemo : (Config.sample 2).boots (fun k0 => k0.loads 0 512 0 fun f k1 _ =>
      (k1.space 0).any fun S => decide (f = 0 ∧ k0.swapChoice = 2 ∧ 2 < S.numPages ∧
          ¬ S.noffH.code.Spills S.file 2 ∧ ¬ S.noffH.initData.Spills S.file 2)) = true := by
    decide +kernel
  obtain ⟨k0, hboot, hp⟩ := Config.boots_iff.mp hdemo
  obtain ⟨f, k1, k', hsel, hload, hp⟩ := loads_iff.mp hp
  obtain ⟨S, hS, hp⟩ := (Option.any_eq_true _ _).mp hp
  obtain ⟨rfl, hpolicy, hv, hspill⟩ := of_decide_eq_true hp
  have hpage : pageOfAddr 512 = (2 : Nat) := rfl
  have hiff := loadPage_outside_iff hsel (fun h => absurd (hpolicy.symm.trans h) (by decide))
    hS hpage hv ⟨k', hload⟩
  exact ⟨k0, k', hboot, hload, fun i hi =>
    hiff.mpr (.inr hspill) k0.mainMemory k' hload i (.inr (by omega))⟩

/-- Page faults at 32 pages in a row, from page `v` on, under Random. -/
def fillSample (v : Nat) : List Event :=
  (List.range numPhysPages).map fun i => .fault (BitVec.ofNat 32 ((v + i) * pageSize)) 0

/-- With memory full of pages 1 to 32 the sample program needs its code again.
In frame 5 it runs over into frame 6, which holds page 7; in the last frame it
runs over the end of memory. -/
theorem loadPage_spills : ∃ (k0 k k' k'' : Kernel) (S : AddrSpace), boot (.sample 2) = .ok k0 ∧
    Run step k0 (fillSample 1) k ∧ k.atUser ∧ k.Faults 0 ∧ k.space 0 = some S ∧
    (S.pageTable 7).valid = true ∧ (S.pageTable 7).physicalPage = 6 ∧
    (k.selectPage 5).map Prod.fst = .ok 5 ∧ k.loadPage 0 0 5 = .ok k' ∧
    k'.mainMemory (pageSize * 6) ≠ k.mainMemory (pageSize * 6) ∧
    (k.selectPage 31).map Prod.fst = .ok 31 ∧ k.loadPage 0 0 31 = .ok k'' ∧
    k''.mainMemory memorySize ≠ k.mainMemory memorySize := by
  have hdemo : (Config.sample 2).reaches (fillSample 1) (fun k =>
      (k.space 0).any fun (S : AddrSpace) =>
        decide (k.atUser ∧ k.Faults 0 ∧
          (S.pageTable 7).valid = true ∧ (S.pageTable 7).physicalPage = 6) &&
        k.loads 0 0 5 (fun f _ k' => decide (f = 5 ∧
          k'.mainMemory (pageSize * 6) ≠ k.mainMemory (pageSize * 6))) &&
        k.loads 0 0 31 fun f _ k' => decide (f = 31 ∧
          k'.mainMemory memorySize ≠ k.mainMemory memorySize)) = true := by
    decide +kernel
  obtain ⟨k0, k, hboot, hrun, hp⟩ := Config.reaches_iff.mp hdemo
  obtain ⟨S, hS, hp⟩ := (Option.any_eq_true _ _).mp hp
  simp only [Bool.and_eq_true] at hp
  obtain ⟨⟨hk, h5⟩, h31⟩ := hp
  obtain ⟨hu, hflt, hvalid, hphys⟩ := of_decide_eq_true hk
  obtain ⟨f, k1, k', hsel, hload, h5⟩ := loads_iff.mp h5
  obtain ⟨rfl, hne⟩ := of_decide_eq_true h5
  obtain ⟨f, k2, k'', hsel', hload', h31⟩ := loads_iff.mp h31
  obtain ⟨rfl, hne'⟩ := of_decide_eq_true h31
  exact ⟨k0, k, k', k'', S, hboot, hrun, hu, hflt, hS, hvalid, hphys, by rw [hsel]; rfl, hload,
    hne, by rw [hsel']; rfl, hload', hne'⟩

end Kernel
end Nachos
