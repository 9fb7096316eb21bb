import MalakethTurbo.Types.ValidatorSet
import Mathlib.Data.Nat.ModEq

/-!
# The rotation of the proposer

The proposer of a height and a round is the validator at the index `height - 1 + round`,
counted round the set.  Two selectors compute it, each in its own checked arithmetic; as
long as nothing overflows they pick the same validator (`picks_iff`).

The index moves on by one with the round and with the height.  So of `n` consecutive
rounds of a height, and of round `0` of `n` consecutive heights, each of the `n`
validators gets exactly one (`existsUnique_add_mod`).

A node can be started at height `0`, where the subtraction panics, and near the largest
height, where the addition does; everywhere else both selectors pick a member of the set
(`selectProposer_faultless_iff`).
-/

namespace MalakethTurbo

variable {ε : Type}

/-! ## The indices -/

/-- The index that `TestContext::select_proposer` computes. -/
def contextIndex (vs : ValidatorSet) (height : Height) (round : Round) : Call ε Nat := do
  assert (vs.count > 0)
  assert (round ≠ .nil ∧ round.asI64 ≥ 0)
  let height := height.asU64.toNat
  let round := round.asI64.toNat
  let sum ← checkedAdd (← checkedSub height 1) round
  return sum % vs.count

theorem selectProposer_eq (vs : ValidatorSet) (height : Height) (round : Round) :
    (selectProposer vs height round : Call ε Validator) =
      contextIndex vs height round >>= fun index => unwrap (vs.getByIndex index) := by
  unfold selectProposer contextIndex
  simp only [bind_assoc]

namespace RotateProposer

/-- The index that `RotateProposer::select_proposer` computes: no validator is no index. -/
def index (vs : ValidatorSet) (height : Height) (round : Round) : Call ε Nat := do
  assert (round ≠ .nil ∧ round.asI64 ≥ 0)
  let height := height.asU64.toNat
  let round := round.asI64.toNat
  let sum ← checkedAdd (← checkedSub height 1) round
  checkedRem sum vs.validators.length

/-- `RotateProposer::select_proposer`. -/
def selectProposer (height : Height) (round : Round) (vs : ValidatorSet) : Call ε Address := do
  let proposerIndex ← index vs height round
  let validator ← unwrap vs.validators[proposerIndex]?
  return validator.address

end RotateProposer

/-! ## Counting round a set -/

section Counting

variable {n a b i : Nat}

theorem exists_add_mod (hi : i < n) (a : Nat) : ∃ k, k < n ∧ (a + k) % n = i := by
  have hn : 0 < n := Nat.zero_lt_of_lt hi
  refine ⟨(i + (n - 1) * a) % n, Nat.mod_lt _ hn, ?_⟩
  have hsum : a + (i + (n - 1) * a) = i + n * a := by
    obtain ⟨m, rfl⟩ := Nat.exists_eq_add_of_lt hn
    simp only [Nat.zero_add, Nat.add_sub_cancel, Nat.add_mul, Nat.one_mul]
    omega
  rw [Nat.add_mod_mod, hsum, Nat.add_mul_mod_self_left, Nat.mod_eq_of_lt hi]

theorem add_mod_inj {k k' : Nat} (hk : k < n) (hk' : k' < n) (h : (a + k) % n = (a + k') % n) :
    k = k' := by
  have hmod : a + k ≡ a + k' [MOD n] := h
  exact (Nat.ModEq.add_left_cancel' a hmod).eq_of_lt_of_lt hk hk'

/-- **Of `n` consecutive numbers exactly one leaves a given remainder.** -/
theorem existsUnique_add_mod (hi : i < n) (a : Nat) : ∃! k, k < n ∧ (a + k) % n = i := by
  obtain ⟨k, hk, hmod⟩ := exists_add_mod hi a
  refine ⟨k, ⟨hk, hmod⟩, ?_⟩
  rintro k' ⟨hk', hmod'⟩
  exact add_mod_inj hk' hk (hmod'.trans hmod.symm)

theorem succ_mod (h : b = a + 1) : b % n = (a % n + 1) % n := by
  rw [h, Nat.mod_add_mod]

end Counting

/-! ## What the selectors pick -/

/-- Both selectors compute the index, and they pick the validator that is there. -/
structure Picks (ε : Type) (vs : ValidatorSet) (height : Height) (round : Round) (i : Nat) :
    Prop where
  context : contextIndex vs height round = (.ok i : Call ε Nat)
  rotate : RotateProposer.index vs height round = (.ok i : Call ε Nat)
  validator : ∃ v, vs.getByIndex i = some v ∧
    selectProposer vs height round = (.ok v : Call ε Validator) ∧
    RotateProposer.selectProposer height round vs = (.ok v.address : Call ε Address)

section Picking

variable {vs : ValidatorSet} {height : Height} {r : UInt32} {i : Nat}

/-- The number that is counted round the set. -/
def turn (height : Height) (r : UInt32) : Nat := height.asU64.toNat - 1 + r.toNat

/-- The arithmetic of both selectors. -/
theorem checkedSub_checkedAdd_run (hheight : 1 ≤ height.asU64.toNat)
    (hlt : turn height r < 2 ^ 64) (f : Nat → Call ε Nat) :
    (checkedSub height.asU64.toNat 1 >>= fun d =>
      checkedAdd d (Round.some r).asI64.toNat >>= f) = f (turn height r) := by
  have hadd : (checkedAdd (height.asU64.toNat - 1) (Round.some r).asI64.toNat : Call ε Nat) =
      .ok (turn height r) := if_pos hlt
  rw [checkedSub, if_pos hheight, call_ok_bind, hadd, call_ok_bind]

theorem some_not_nil (r : UInt32) : Round.some r ≠ .nil ∧ (Round.some r).asI64 ≥ 0 :=
  ⟨by simp, by simp [Round.asI64]⟩

theorem contextIndex_run (hpos : 0 < vs.count) (hheight : 1 ≤ height.asU64.toNat)
    (hlt : turn height r < 2 ^ 64) :
    contextIndex vs height (.some r) = (.ok (turn height r % vs.count) : Call ε Nat) := by
  rw [contextIndex, assert_of hpos, call_ok_bind, assert_of (some_not_nil r), call_ok_bind]
  exact checkedSub_checkedAdd_run hheight hlt fun sum => .ok (sum % vs.count)

theorem index_run (hpos : 0 < vs.count) (hheight : 1 ≤ height.asU64.toNat)
    (hlt : turn height r < 2 ^ 64) :
    RotateProposer.index vs height (.some r) = (.ok (turn height r % vs.count) : Call ε Nat) := by
  have hrem : (checkedRem (turn height r) vs.validators.length : Call ε Nat) =
      .ok (turn height r % vs.count) := if_neg (Nat.pos_iff_ne_zero.mp hpos)
  rw [RotateProposer.index, assert_of (some_not_nil r), call_ok_bind, ← hrem]
  exact checkedSub_checkedAdd_run hheight hlt fun sum => checkedRem sum vs.validators.length

/-- **Which validator is picked.** -/
theorem picks_iff (hpos : 0 < vs.count) (hheight : 1 ≤ height.asU64.toNat)
    (hlt : turn height r < 2 ^ 64) :
    Picks ε vs height (.some r) i ↔ i = turn height r % vs.count := by
  have hcontext := contextIndex_run (ε := ε) hpos hheight hlt
  have hrotate := index_run (ε := ε) hpos hheight hlt
  constructor
  · intro h
    exact Except.ok.inj (h.context.symm.trans hcontext)
  · rintro rfl
    have hindex : turn height r % vs.count < vs.validators.length := Nat.mod_lt _ hpos
    have hget : vs.validators[turn height r % vs.count]? = some _ :=
      List.getElem?_eq_getElem hindex
    refine ⟨hcontext, hrotate, _, hget, ?_, ?_⟩
    · rw [selectProposer_eq, hcontext, call_ok_bind, ValidatorSet.getByIndex, hget]
      rfl
    · rw [RotateProposer.selectProposer, hrotate, call_ok_bind, hget]
      rfl

/-- Of consecutive turns, as many as there are validators, each validator gets one.  The turns
are given by what they are counted by, a height or a round. -/
theorem existsUnique_picks {α : Type} {f : α → Nat} (hf : Function.Injective f) {a b : Nat}
    (hsurj : ∀ k, k < vs.count → ∃ x, f x = a + k) {heightAt : α → Height} {roundAt : α → UInt32}
    (hpicks : ∀ x k, f x = a + k → k < vs.count →
      (Picks ε vs (heightAt x) (.some (roundAt x)) i ↔ i = (b + k) % vs.count))
    (hi : i < vs.count) :
    ∃! x, a ≤ f x ∧ f x < a + vs.count ∧ Picks ε vs (heightAt x) (.some (roundAt x)) i := by
  obtain ⟨k, ⟨hk, hmod⟩, huniq⟩ := existsUnique_add_mod hi b
  obtain ⟨x, hx⟩ := hsurj k hk
  refine ⟨x, ⟨by omega, by omega, (hpicks x k hx hk).mpr hmod.symm⟩, ?_⟩
  rintro y ⟨hlow, hhigh, hy⟩
  obtain ⟨k', hk'⟩ := Nat.exists_eq_add_of_le hlow
  have hlt : k' < vs.count := by omega
  have heq := huniq k' ⟨hlt, ((hpicks y k' hk' hlt).mp hy).symm⟩
  exact hf (by rw [hx, hk', heq])

end Picking

/-- **The rotation is fair, and the two selectors agree on it.**  As long as the turns of a
whole rotation can be counted, both pick the validator at one index; the next round of the
height and the same round of the next height pick the one after it.  Of as many consecutive
rounds as there are validators, if they can be numbered, and of round `0` of as many
consecutive heights, exactly one picks each index. -/
theorem rotation_fair {vs : ValidatorSet} (hpos : 0 < vs.count) {height : Height} {r : UInt32}
    (hheight : 1 ≤ height.asU64.toNat)
    (hbound : height.asU64.toNat - 1 + r.toNat + vs.count ≤ 2 ^ 64 - 1) :
    (∃ i, i < vs.count ∧ Picks ε vs height (.some r) i ∧
        (∀ r' : UInt32, r'.toNat = r.toNat + 1 →
          Picks ε vs height (.some r') ((i + 1) % vs.count)) ∧
        ∀ height' : Height, height'.asU64.toNat = height.asU64.toNat + 1 →
          Picks ε vs height' (.some r) ((i + 1) % vs.count)) ∧
      (r.toNat + vs.count ≤ 2 ^ 32 → ∀ i, i < vs.count →
        ∃! r' : UInt32, r.toNat ≤ r'.toNat ∧ r'.toNat < r.toNat + vs.count ∧
          Picks ε vs height (.some r') i) ∧
      ∀ i, i < vs.count →
        ∃! height' : Height, height.asU64.toNat ≤ height'.asU64.toNat ∧
          height'.asU64.toNat < height.asU64.toNat + vs.count ∧
          Picks ε vs height' (.some 0) i := by
  have hturn : turn height r = height.asU64.toNat - 1 + r.toNat := rfl
  refine ⟨⟨turn height r % vs.count, Nat.mod_lt _ hpos,
    (picks_iff hpos hheight (by omega)).mpr rfl, fun r' hr' => ?_, fun height' hheight' => ?_⟩,
    fun hrounds i hi => ?_, fun i hi => ?_⟩
  · have hnext : turn height r' = turn height r + 1 := by
      rw [turn, turn, hr', Nat.add_assoc]
    exact (picks_iff hpos hheight (by omega)).mpr (succ_mod hnext).symm
  · have hnext : turn height' r = turn height r + 1 := by
      rw [turn, turn, hheight']
      omega
    exact (picks_iff hpos (by omega) (by omega)).mpr (succ_mod hnext).symm
  · refine existsUnique_picks (b := turn height r) (fun x y h => UInt32.toNat_inj.mp h)
      (fun k hk => ?_) (fun x k hx hk => ?_) hi
    · have hsmall : r.toNat + k < 2 ^ 32 := by omega
      exact ⟨UInt32.ofNat (r.toNat + k), UInt32.toNat_ofNat_of_lt' hsmall⟩
    · have hlater : turn height x = turn height r + k := by
        rw [turn, turn, hx, Nat.add_assoc]
      rw [← hlater]
      exact picks_iff hpos hheight (by omega)
  · have hfirst : turn height 0 = height.asU64.toNat - 1 := rfl
    refine existsUnique_picks (b := turn height 0) Height.toNat_asU64_injective
      (fun k hk => ?_) (fun x k hx hk => ?_) hi
    · have hsmall : height.asU64.toNat + k < 2 ^ 64 := by omega
      exact ⟨⟨UInt64.ofNat (height.asU64.toNat + k)⟩, UInt64.toNat_ofNat_of_lt' hsmall⟩
    · have hlater : turn x 0 = turn height 0 + k := by
        rw [turn, turn, hx]
        omega
      rw [← hlater]
      exact picks_iff hpos (by omega) (by omega)

/-! ## Where the selectors fault -/

section Faults

variable {vs : ValidatorSet} {height : Height} {r : UInt32}

/-- The height a node begins at: that of the command line, which is any number, or the
default. -/
def startHeight (start : Option UInt64) : Height := (start.map Height.mk).getD default

/-- The height after a number of commits, each of which goes on to the next height. -/
def heightAfter (start : Height) : Nat → Call ε Height
  | 0 => .ok start
  | commits + 1 => heightAfter start commits >>= Height.increment

theorem toNat_increment {next : Height} (h : height.increment = (.ok next : Call ε Height)) :
    next.asU64.toNat = height.asU64.toNat + 1 := by
  rw [Height.increment] at h
  split_ifs at h with hlt
  · rw [← Except.ok.inj h, UInt64.toNat_add, UInt64.toNat_one]
    omega

/-- By induction on the commits. -/
theorem toNat_heightAfter {start : Height} {commits : Nat}
    (h : heightAfter start commits = (.ok height : Call ε Height)) :
    height.asU64.toNat = start.asU64.toNat + commits := by
  induction commits generalizing height with
  | zero => rw [← Except.ok.inj h, Nat.add_zero]
  | succ commits ih =>
      obtain ⟨last, hlast, hnext⟩ := call_bind_eq_ok.mp h
      rw [toNat_increment hnext, ih hlast, Nat.add_assoc]

/-- A set that is built has a validator. -/
theorem count_pos_of_new {validators : List Validator}
    (h : ValidatorSet.new validators = (.ok vs : Call ε ValidatorSet)) : 0 < vs.count := by
  obtain ⟨⟨⟩, hassert, hok⟩ := call_bind_eq_ok.mp h
  rw [← Except.ok.inj hok]
  unfold assert at hassert
  split_ifs at hassert with hne
  exact List.length_pos_of_ne_nil hne

/-- The turn can be counted: there is a height before, and the sum has 64 bits. -/
def TurnFits (height : Height) (r : UInt32) : Prop :=
  1 ≤ height.asU64.toNat ∧ turn height r < 2 ^ 64

/-- Otherwise the subtraction or the addition panics. -/
theorem checkedSub_checkedAdd_panics (h : ¬ TurnFits height r) (f : Nat → Call ε Nat) :
    (checkedSub height.asU64.toNat 1 >>= fun d =>
      checkedAdd d (Round.some r).asI64.toNat >>= f) = .error .panic := by
  by_cases hheight : 1 ≤ height.asU64.toNat
  · have hover : ¬ turn height r < 2 ^ 64 := fun hlt => h ⟨hheight, hlt⟩
    have hadd : (checkedAdd (height.asU64.toNat - 1) (Round.some r).asI64.toNat : Call ε Nat) =
        .error .panic := if_neg hover
    rw [checkedSub, if_pos hheight, call_ok_bind, hadd, call_error_bind]
  · rw [checkedSub, if_neg hheight, call_error_bind]

theorem contextIndex_panics (hpos : 0 < vs.count) (h : ¬ TurnFits height r) :
    contextIndex vs height (.some r) = (.error .panic : Call ε Nat) := by
  rw [contextIndex, assert_of hpos, call_ok_bind, assert_of (some_not_nil r), call_ok_bind]
  exact checkedSub_checkedAdd_panics h _

theorem index_panics (h : ¬ TurnFits height r) :
    RotateProposer.index vs height (.some r) = (.error .panic : Call ε Nat) := by
  rw [RotateProposer.index, assert_of (some_not_nil r), call_ok_bind]
  exact checkedSub_checkedAdd_panics h _

theorem exists_selectProposer_iff (hpos : 0 < vs.count) :
    (∃ v ∈ vs.validators, selectProposer vs height (.some r) = (.ok v : Call ε Validator)) ↔
      TurnFits height r := by
  constructor
  · rintro ⟨v, -, hselect⟩
    by_contra hnot
    rw [selectProposer_eq, contextIndex_panics hpos hnot, call_error_bind] at hselect
    cases hselect
  · rintro ⟨hheight, hlt⟩
    obtain ⟨-, -, v, hget, hselect, -⟩ := (picks_iff (ε := ε) hpos hheight hlt).mpr rfl
    exact ⟨v, List.mem_of_getElem? hget, hselect⟩

theorem exists_rotate_selectProposer_iff (hpos : 0 < vs.count) :
    (∃ v ∈ vs.validators,
        RotateProposer.selectProposer height (.some r) vs = (.ok v.address : Call ε Address)) ↔
      TurnFits height r := by
  constructor
  · rintro ⟨v, -, hselect⟩
    by_contra hnot
    rw [RotateProposer.selectProposer, index_panics hnot, call_error_bind] at hselect
    cases hselect
  · rintro ⟨hheight, hlt⟩
    obtain ⟨-, -, v, hget, -, hselect⟩ := (picks_iff (ε := ε) hpos hheight hlt).mpr rfl
    exact ⟨v, List.mem_of_getElem? hget, hselect⟩

/-- **Each selector picks a member of the set exactly if the turn can be counted**, at every
height that a node reaches from the one it is started at and in every round.  It cannot at
height zero, where a node can be started and which no commit leads to, and where the sum of
height and round goes beyond 64 bits. -/
theorem selectProposer_faultless_iff {validators : List Validator}
    (hnew : ValidatorSet.new validators = (.ok vs : Call ε ValidatorSet)) {start : Option UInt64}
    {commits : Nat}
    (hreached : heightAfter (startHeight start) commits = (.ok height : Call ε Height))
    (r : UInt32) :
    ((∃ v ∈ vs.validators, selectProposer vs height (.some r) = (.ok v : Call ε Validator)) ↔
        1 ≤ (startHeight start).asU64.toNat + commits ∧
          (startHeight start).asU64.toNat + commits - 1 + r.toNat < 2 ^ 64) ∧
      ((∃ v ∈ vs.validators, RotateProposer.selectProposer height (.some r) vs =
          (.ok v.address : Call ε Address)) ↔
        1 ≤ (startHeight start).asU64.toNat + commits ∧
          (startHeight start).asU64.toNat + commits - 1 + r.toNat < 2 ^ 64) := by
  have hpos := count_pos_of_new hnew
  rw [← toNat_heightAfter hreached]
  exact ⟨exists_selectProposer_iff hpos, exists_rotate_selectProposer_iff hpos⟩

end Faults

section Demo

attribute [local instance] demoCrypto

/-- A set of three validators. -/
def threeValidators : ValidatorSet := ⟨[1, 2, 3].map fun i => Validator.new (demoKey i) 1⟩

theorem rotation_fair_demo :
    ∃ i, i < 3 ∧ Picks Unit threeValidators ⟨5⟩ (.some 1) i ∧
      Picks Unit threeValidators ⟨5⟩ (.some 2) ((i + 1) % 3) := by
  have hfair := @rotation_fair Unit threeValidators (by decide) ⟨5⟩ 1 (by decide) (by decide)
  obtain ⟨⟨i, hi, hpicks, hround, -⟩, -⟩ := hfair
  exact ⟨i, hi, hpicks, hround 2 rfl⟩

/-- **A node that is started at height zero faults in its first round**, and one that is
started at the largest height faults in its third. -/
theorem selectProposer_faults :
    ValidatorSet.new threeValidators.validators = (.ok threeValidators : Call Unit ValidatorSet) ∧
      heightAfter (startHeight (some 0)) 0 = (.ok ⟨0⟩ : Call Unit Height) ∧
      selectProposer threeValidators ⟨0⟩ (.some 0) = (.error .panic : Call Unit Validator) ∧
      RotateProposer.selectProposer ⟨0⟩ (.some 0) threeValidators =
        (.error .panic : Call Unit Address) ∧
      heightAfter (startHeight (some 18446744073709551615)) 0 =
        (.ok ⟨18446744073709551615⟩ : Call Unit Height) ∧
      selectProposer threeValidators ⟨18446744073709551615⟩ (.some 2) =
        (.error .panic : Call Unit Validator) := by
  refine ⟨by decide +kernel, rfl, by decide +kernel, by decide +kernel, rfl, by decide +kernel⟩

/-- Started without a height, after one commit, in the last round there is. -/
theorem selectProposer_faultless_demo :
    (∃ v ∈ threeValidators.validators, selectProposer threeValidators ⟨2⟩ (.some 4294967295) =
        (.ok v : Call Unit Validator)) ∧
      ∃ v ∈ threeValidators.validators,
        RotateProposer.selectProposer ⟨2⟩ (.some 4294967295) threeValidators =
          (.ok v.address : Call Unit Address) := by
  have hnew : ValidatorSet.new threeValidators.validators =
      (.ok threeValidators : Call Unit ValidatorSet) := by decide +kernel
  have hreached : heightAfter (startHeight none) 1 = (.ok ⟨2⟩ : Call Unit Height) := rfl
  obtain ⟨hselect, hrotate⟩ := selectProposer_faultless_iff hnew hreached 4294967295
  exact ⟨hselect.mpr (by decide), hrotate.mpr (by decide)⟩

end Demo

end MalakethTurbo
