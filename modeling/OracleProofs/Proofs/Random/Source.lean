/-
# Drawing

As many values are drawn as are asked for, and positions are drawn below their bound,
whatever words the source returns. Where the values can be held together, only a search that
never ends can keep them from being drawn. With the generator every search for a single word
ends, because it passes through all its states and returns zero in one of them.
-/

import Mathlib
import OracleProofs.Proofs.Fault
import OracleProofs.Random.Source

namespace OracleProofs

variable {S : Type}

section Search

variable [RandomSource S]

/-- The upper half of a product of a word with the bound is below the bound. -/
theorem drawBelow_lt {bound attempts : ℕ} (positive : 0 < bound) {source rest : S}
    {position : ℕ} (drawn : drawBelow bound attempts source = some (position, rest)) :
    position < bound := by
  induction attempts generalizing source with
  | zero => cases drawn
  | succ attempts ih =>
      simp only [drawBelow] at drawn
      split at drawn
      · cases drawn
        apply Nat.div_lt_of_lt_mul
        exact Nat.mul_lt_mul_of_pos_right (RandomSource.next source).1.toNat_lt positive
      · exact ih drawn

theorem drawPosition_lt {bound : ℕ} (positive : 0 < bound) {source rest : S} {position : ℕ}
    (drawn : drawPosition bound source = some (position, rest)) : position < bound :=
  drawBelow_lt positive drawn

end Search

section Repeated

variable {α : Type} {draw : S → Option (α × S)} {count : ℕ} {source rest : S} {values : List α}

theorem drawMany_succ_eq_some_iff : drawMany draw (count + 1) source = some (values, rest) ↔
    ∃ value middle later, draw source = some (value, middle) ∧
      drawMany draw count middle = some (later, rest) ∧ values = value :: later := by
  simp only [drawMany, Option.bind_eq_bind, Option.bind_eq_some_iff, Option.pure_def,
    Option.some.injEq, Prod.mk.injEq, Prod.exists]
  constructor
  · rintro ⟨value, middle, hfirst, later, _, hrest, rfl, rfl⟩
    exact ⟨value, middle, later, hfirst, hrest, rfl⟩
  · rintro ⟨value, middle, later, hfirst, hrest, rfl⟩
    exact ⟨value, middle, hfirst, later, rest, hrest, rfl, rfl⟩

theorem length_drawMany (drawn : drawMany draw count source = some (values, rest)) :
    values.length = count := by
  induction count generalizing source values with
  | zero =>
      cases drawn
      rfl
  | succ count ih =>
      obtain ⟨value, middle, later, -, hrest, rfl⟩ := drawMany_succ_eq_some_iff.mp drawn
      rw [List.length_cons, ih hrest]

/-- What holds of every drawn value holds of all of them. -/
theorem forall_mem_drawMany {holds : α → Prop}
    (single : ∀ {source value rest}, draw source = some (value, rest) → holds value)
    (drawn : drawMany draw count source = some (values, rest)) : ∀ value ∈ values, holds value := by
  induction count generalizing source values with
  | zero =>
      cases drawn
      exact fun _ hmem => nomatch hmem
  | succ count ih =>
      obtain ⟨value, middle, later, hfirst, hrest, rfl⟩ := drawMany_succ_eq_some_iff.mp drawn
      rw [List.forall_mem_cons]
      exact ⟨single hfirst, ih hrest⟩

theorem drawMany_of_drawMany? {width : ℕ}
    (drawn : drawMany? width draw count source = .ok (values, rest)) :
    drawMany draw count source = some (values, rest) := by
  obtain ⟨_, -, drawn⟩ := bind_eq_ok_iff.mp drawn
  cases hmany : drawMany draw count source with
  | none =>
      rw [hmany] at drawn
      cases drawn
  | some all =>
      rw [hmany] at drawn
      cases drawn
      rfl

end Repeated

/-- Nothing but a search that never ends keeps a drawing from an answer. -/
def EndlessOrDrawn {α : Type} (drawing : Except Fault α) : Prop :=
  ∀ cause, drawing = .error cause → cause = .endless

namespace EndlessOrDrawn

variable {α β : Type}

theorem ok (answer : α) : EndlessOrDrawn (.ok answer) := fun _ h => nomatch h

theorem bind {drawing : Except Fault α} {next : α → Except Fault β}
    (first : EndlessOrDrawn drawing) (later : ∀ answer, EndlessOrDrawn (next answer)) :
    EndlessOrDrawn (drawing >>= next) := by
  cases drawing with
  | error cause =>
      intro other hother
      cases hother
      exact first cause rfl
  | ok answer => exact later answer

theorem map {drawing : Except Fault α} (first : EndlessOrDrawn drawing) (change : α → β) :
    EndlessOrDrawn (drawing.map change) :=
  fun cause hcause => first cause (map_eq_error_iff.mp hcause)

/-- Values that can be held together are drawn, or a search among them never ends. -/
theorem drawMany? {count width : ℕ} (room : checkRoom count width = .ok ())
    (draw : S → Option (α × S)) (source : S) :
    EndlessOrDrawn (OracleProofs.drawMany? width draw count source) := by
  rw [OracleProofs.drawMany?, room, ok_bind]
  intro cause hcause
  cases hmany : drawMany draw count source with
  | none =>
      rw [hmany] at hcause
      cases hcause
      rfl
  | some drawn =>
      rw [hmany] at hcause
      cases hcause

theorem eq_error_or_exists {drawing : Except Fault α} (drawn : EndlessOrDrawn drawing) :
    drawing = .error .endless ∨ ∃ answer, drawing = .ok answer := by
  cases drawing with
  | error cause => exact .inl (congrArg _ (drawn cause rfl))
  | ok answer => exact .inr ⟨answer, rfl⟩

end EndlessOrDrawn

theorem checkRoom_eq_ok_iff {count width : ℕ} :
    checkRoom count width = .ok () ↔ count * width < addressableBytes := by
  rw [checkRoom]
  by_cases hroom : count * width < addressableBytes
  · rw [if_pos hroom]
    exact ⟨fun _ => hroom, fun _ => rfl⟩
  · rw [if_neg hroom]
    exact ⟨fun h => (nomatch h), fun hfits => absurd hfits hroom⟩

namespace SplitMix

/-- The generator after `count` words. -/
def after (source : SplitMix) (count : ℕ) : SplitMix :=
  ⟨source.state + .ofNat count * 0x9e3779b97f4a7c15⟩

theorem after_zero (source : SplitMix) : source.after 0 = source := by simp [after]

theorem after_succ (source : SplitMix) (count : ℕ) :
    (RandomSource.next source).2.after count = source.after (count + 1) := by
  have hstate : source.state + 0x9e3779b97f4a7c15 + .ofNat count * 0x9e3779b97f4a7c15 =
      source.state + .ofNat (count + 1) * 0x9e3779b97f4a7c15 := by
    rw [UInt64.ofNat_add, UInt64.add_mul, UInt64.ofNat_one, UInt64.one_mul, UInt64.add_assoc,
      UInt64.add_comm 0x9e3779b97f4a7c15]
  exact congrArg SplitMix.mk hstate

/-- An odd number, added again and again, leads to every state, and so to the one that is mixed
to zero. -/
theorem exists_next_after_eq_zero (source : SplitMix) :
    ∃ count < drawAttempts, (RandomSource.next (source.after count)).1 = 0 := by
  let count : UInt64 := (0 - source.state - 0x9e3779b97f4a7c15) * 0xf1de83e19937733d
  have hinverse : (0xf1de83e19937733d : UInt64) * 0x9e3779b97f4a7c15 = 1 := by decide
  have hstate : (source.after count.toNat).state + 0x9e3779b97f4a7c15 = 0 := by
    rw [after, UInt64.ofNat_toNat, UInt64.mul_assoc, hinverse, UInt64.mul_one]
    grind
  refine ⟨count.toNat, count.toNat_lt, ?_⟩
  show mix ((source.after count.toNat).state + 0x9e3779b97f4a7c15) = 0
  rw [hstate]
  decide

/-- Zero is accepted as a position. -/
theorem drawBelow_ne_none {bound attempts count : ℕ} (inside : count < attempts)
    {source : SplitMix} (zero : (RandomSource.next (source.after count)).1 = 0) :
    drawBelow bound attempts source ≠ none := by
  induction attempts generalizing count source with
  | zero => exact absurd inside (Nat.not_lt_zero _)
  | succ attempts ih =>
      simp only [drawBelow]
      split
      · exact Option.some_ne_none _
      · rename_i hrejected
        cases count with
        | zero =>
            rw [after_zero] at zero
            simp [zero] at hrejected
        | succ count =>
            rw [← after_succ] at zero
            exact ih (Nat.lt_of_succ_lt_succ inside) zero

/-- Zero is accepted as an element. -/
theorem drawBelowPrime_ne_none {p attempts count : ℕ} (positive : 0 < p)
    (inside : count < attempts) {source : SplitMix}
    (zero : (RandomSource.next (source.after count)).1 = 0) :
    drawBelowPrime p 1 attempts source ≠ none := by
  induction attempts generalizing count source with
  | zero => exact absurd inside (Nat.not_lt_zero _)
  | succ attempts ih =>
      cases hnext : RandomSource.next source with
      | mk word rest =>
          have hword : drawWords 1 source = (word.toNat, rest) := by simp [drawWords, hnext]
          rw [drawBelowPrime, hword]
          dsimp only
          split_ifs with haccepted
          · exact Option.some_ne_none _
          · cases count with
            | zero =>
                rw [after_zero, hnext] at zero
                have hzero : word = 0 := zero
                rw [hzero, UInt64.toNat_zero, Nat.zero_mod] at haccepted
                exact absurd positive haccepted
            | succ count =>
                rw [← after_succ, hnext] at zero
                exact ih (Nat.lt_of_succ_lt_succ inside) zero

/-- Positions and elements of one word can be drawn from every state of the generator. -/
theorem draw_ne_none {p : ℕ} [TwoAdicPrime p] (single : TwoAdicPrime.words p = 1) (bound : ℕ)
    (source : SplitMix) :
    drawPosition bound source ≠ none ∧ (Drawable.draw source : Option (Residue p × _)) ≠ none := by
  obtain ⟨count, hinside, hzero⟩ := exists_next_after_eq_zero source
  have hpositive : 0 < p := Nat.zero_lt_one.trans TwoAdicPrime.one_lt
  refine ⟨drawBelow_ne_none hinside hzero, ?_⟩
  obtain ⟨drawn, hdrawn⟩ :=
    Option.ne_none_iff_exists'.mp (drawBelowPrime_ne_none hpositive hinside hzero)
  simp [Drawable.draw, single, hdrawn]

end SplitMix
end OracleProofs
