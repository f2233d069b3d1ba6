import Mathlib.Logic.Basic

/-! Exclusive ownership of marked resources. `holds r h` says that holder `h`
has resource `r`; the allocator only keeps marks. The rules say how the two stay
in step when a free resource is taken, when one changes hands, and when a group
of holders gives back everything it has. -/

namespace Nachos.Lib

variable {R H : Type} {holds holds' : R → H → Prop} {marked marked' : R → Prop}

/-- A marked resource has exactly one holder, an unmarked one has none. -/
structure Exclusive (holds : R → H → Prop) (marked : R → Prop) : Prop where
  unique : ∀ {r h h'}, holds r h → holds r h' → h = h'
  marked_iff : ∀ r, marked r ↔ ∃ h, holds r h

theorem Exclusive.congr (he : Exclusive holds marked) (hh : ∀ r h, holds' r h ↔ holds r h)
    (hm : ∀ r, marked' r ↔ marked r) : Exclusive holds' marked' := by
  refine ⟨fun h1 h2 => he.unique ((hh _ _).mp h1) ((hh _ _).mp h2), fun r => ?_⟩
  rw [hm, he.marked_iff]
  exact exists_congr fun h => (hh r h).symm

/-- A holder that has nothing takes a free resource. -/
theorem Exclusive.acquire {r : R} {x : H} (he : Exclusive holds marked) (free : ¬ marked r)
    (before : ∀ r', ¬ holds r' x) (after : ∀ r', holds' r' x ↔ r' = r)
    (other : ∀ r' h, h ≠ x → (holds' r' h ↔ holds r' h))
    (hm : ∀ r', marked' r' ↔ marked r' ∨ r' = r) : Exclusive holds' marked' := by
  have hh (r' : R) (h : H) : holds' r' h ↔ holds r' h ∨ r' = r ∧ h = x := by
    by_cases hx : h = x
    · subst hx
      simp [after, before]
    · simp [other r' h hx, hx]
  have hnone (h : H) : ¬ holds r h := fun hr => free ((he.marked_iff r).mpr ⟨h, hr⟩)
  constructor
  · intro r' a b ha hb
    rcases (hh _ _).mp ha with ha | ⟨hr, rfl⟩ <;> rcases (hh _ _).mp hb with hb | ⟨hr', rfl⟩
    · exact he.unique ha hb
    · exact absurd (hr' ▸ ha) (hnone a)
    · exact absurd (hr ▸ hb) (hnone b)
    · rfl
  · intro r'
    simp only [hm, hh, he.marked_iff, exists_or]
    constructor
    · rintro (h | rfl)
      · exact .inl h
      · exact .inr ⟨x, rfl, rfl⟩
    · rintro (h | ⟨_, rfl, _⟩)
      · exact .inl h
      · exact .inr rfl

/-- A holder passes the only resource it has to one that has nothing. -/
theorem Exclusive.pass {r : R} {x y : H} (he : Exclusive holds marked) (held : holds r x)
    (giver : ∀ r', ¬ holds' r' x) (before : ∀ r', ¬ holds r' y)
    (after : ∀ r', holds' r' y ↔ r' = r)
    (other : ∀ r' h, h ≠ x → h ≠ y → (holds' r' h ↔ holds r' h))
    (hm : ∀ r', marked' r' ↔ marked r') (only : ∀ r', holds r' x → r' = r) :
    Exclusive holds' marked' := by
  have hh (r' : R) (h : H) : holds' r' h ↔ holds r' h ∧ r' ≠ r ∨ r' = r ∧ h = y := by
    by_cases hx : h = x
    · subst hx
      have hne : h ≠ y := fun hy => before r (hy ▸ held)
      constructor
      · exact fun h' => absurd h' (giver r')
      · rintro (⟨h', hr⟩ | ⟨-, hy⟩)
        · exact absurd (only r' h') hr
        · exact absurd hy hne
    · by_cases hy : h = y
      · subst hy
        simp [after, before]
      · simp only [other r' h hx hy, hy, and_false, or_false]
        refine ⟨fun h' => ⟨h', fun hr => hx ?_⟩, And.left⟩
        exact he.unique (hr ▸ h') held
  constructor
  · intro r' a b ha hb
    rcases (hh _ _).mp ha with ⟨ha, hr⟩ | ⟨hr, rfl⟩ <;>
      rcases (hh _ _).mp hb with ⟨hb, hr'⟩ | ⟨hr', rfl⟩
    · exact he.unique ha hb
    · exact absurd hr' hr
    · exact absurd hr hr'
    · rfl
  · intro r'
    rw [hm, he.marked_iff]
    by_cases hr : r' = r
    · subst hr
      exact ⟨fun _ => ⟨y, (after _).mpr rfl⟩, fun _ => ⟨x, held⟩⟩
    · refine exists_congr fun h => ⟨fun h' => (hh _ _).mpr (.inl ⟨h', hr⟩), fun h' => ?_⟩
      rcases (hh _ _).mp h' with ⟨h', -⟩ | ⟨h', -⟩
      · exact h'
      · exact absurd h' hr

/-- The holders in `gone` give back all they have. -/
theorem Exclusive.release (gone : H → Prop) (he : Exclusive holds marked)
    (hh : ∀ r h, holds' r h ↔ holds r h ∧ ¬ gone h)
    (hm : ∀ r, marked' r ↔ marked r ∧ ∀ h, gone h → ¬ holds r h) : Exclusive holds' marked' := by
  refine ⟨fun h1 h2 => he.unique ((hh _ _).mp h1).1 ((hh _ _).mp h2).1, fun r => ?_⟩
  rw [hm, he.marked_iff]
  constructor
  · intro ⟨⟨h, hr⟩, hgone⟩
    exact ⟨h, (hh _ _).mpr ⟨hr, fun hg => hgone h hg hr⟩⟩
  · intro ⟨h, hr⟩
    obtain ⟨hr, hg⟩ := (hh _ _).mp hr
    exact ⟨⟨h, hr⟩, fun h' hg' hr' => hg (he.unique hr' hr ▸ hg')⟩

end Nachos.Lib
