import Mathlib.Algebra.Order.Ring.Canonical

/-!
# V2I.Lib.Viterbi

Decoding by max-product dynamic programming over a trellis whose layers may differ in
size. A layer says how many candidates it has and how much weight a step from a
candidate of the layer before carries; a path picks one candidate, by its index, in
every layer, and its score is the product of the initial value and the weights.
-/

namespace V2I.Viterbi

variable {K : Type*}

/-- One layer of the trellis: its number of candidates and the weight of the step from
candidate `i` of the previous layer to candidate `j`. -/
structure Layer (K : Type*) where
  width : ℕ
  weight : ℕ → ℕ → K

/-- The path picks a candidate in every layer; `n` is the width of the first one. -/
def Valid : ℕ → List (Layer K) → List ℕ → Prop
  | n, [], [i] => i < n
  | n, L :: Ls, i :: path => i < n ∧ Valid L.width Ls path
  | _, _, _ => False

section Score

variable [CommSemiring K]

/-- The score of a path, from the values `d` of the candidates of its first layer. -/
def score : (ℕ → K) → List (Layer K) → List ℕ → K
  | d, [], i :: _ => d i
  | d, L :: Ls, i :: path => score (fun j => d i * L.weight i j) Ls path
  | _, _, [] => 0

variable [LinearOrder K] [CanonicallyOrderedAdd K] {d : ℕ → K}

/-- Larger initial values give larger scores. -/
theorem score_mono {d' : ℕ → K} {Ls : List (Layer K)} (hd : ∀ i < n, d i ≤ d' i)
    (hv : Valid n Ls path) : score d Ls path ≤ score d' Ls path := by
  induction Ls generalizing n d d' path with
  | nil =>
      match path, hv with
      | [i], hi => exact hd i hi
  | cons L Ls ih =>
      match path, hv with
      | i :: path, hi =>
          rw [score, score]
          exact ih (fun j _ => mul_le_mul_left (hd i hi.1) _) hi.2

/-- No path has a larger score. -/
def Best (n : ℕ) (d : ℕ → K) (Ls : List (Layer K)) (path : List ℕ) : Prop :=
  Valid n Ls path ∧ ∀ path', Valid n Ls path' → score d Ls path' ≤ score d Ls path

omit [CanonicallyOrderedAdd K] in
/-- In the last layer a candidate of maximal value is the best path. -/
theorem Best.single (hi : i < n) (hmax : ∀ j < n, d j ≤ d i) : Best n d [] [i] := by
  refine ⟨hi, fun path' hv => ?_⟩
  match path', hv with
  | [j], hj => exact hmax j hj

/-- The values `d'` and back-pointers `psi` of a layer are those of the maximizing steps
from the layer before. -/
def Relaxed (n : ℕ) (d : ℕ → K) (L : Layer K) (d' : ℕ → K) (psi : ℕ → ℕ) : Prop :=
  ∀ j < L.width, psi j < n ∧ d' j = d (psi j) * L.weight (psi j) j ∧
    ∀ i < n, d i * L.weight i j ≤ d' j

/-- **Optimal substructure**: the best path of the rest of the trellis, preceded by the
back-pointer of its first candidate, is a best path. -/
theorem Best.cons {d' : ℕ → K} {L : Layer K} (hrelax : Relaxed n d L d' psi)
    (hbest : Best L.width d' Ls (j :: path)) : Best n d (L :: Ls) (psi j :: j :: path) := by
  obtain ⟨hvalid, hmax⟩ := hbest
  have hj : j < L.width := by
    cases Ls with
    | nil =>
        match path, hvalid with
        | [], hj => exact hj
    | cons => exact hvalid.1
  obtain ⟨hpsi, hval, -⟩ := hrelax j hj
  refine ⟨⟨hpsi, hvalid⟩, fun path' hv => ?_⟩
  match path', hv with
  | i :: rest, ⟨hi, hrest⟩ =>
      have hend : score (fun k => d (psi j) * L.weight (psi j) k) Ls (j :: path) =
          score d' Ls (j :: path) := by
        cases Ls with
        | nil => exact hval.symm
        | cons => rw [score, score, hval]
      calc score d (L :: Ls) (i :: rest)
          ≤ score d' Ls rest := score_mono (fun k hk => (hrelax k hk).2.2 i hi) hrest
        _ ≤ score d' Ls (j :: path) := hmax rest hrest
        _ = score d (L :: Ls) (psi j :: j :: path) := hend.symm

end Score

/-! ## The maximum loop -/

section Argmax

variable [Zero K] [LinearOrder K]

/-- The loop that keeps the largest value seen and where it was first seen, starting from
zero; `none` when a value cannot be read. -/
def argmax (n : ℕ) (f : ℕ → Option K) : Option (K × ℕ) :=
  (List.range n).foldlM (fun best s =>
    match f s with
    | none => none
    | some prob => some (if best.1 < prob then (prob, s) else best)) (0, 0)

theorem argmax_succ (n : ℕ) (f : ℕ → Option K) :
    argmax (n + 1) f =
      (argmax n f).bind fun best =>
        (f n).map fun prob => if best.1 < prob then (prob, n) else best := by
  unfold argmax
  rw [List.range_succ, List.foldlM_append]
  refine congrArg (Option.bind _) (funext fun best => ?_)
  rw [List.foldlM_cons]
  cases f n <;> rfl

theorem argmax_spec {f : ℕ → Option K} {g : ℕ → K} (hf : ∀ s < n, f s = some (g s)) :
    ∃ m i, argmax n f = some (m, i) ∧ (∀ s < n, g s ≤ m) ∧
      (m = 0 ∧ i = 0 ∨ i < n ∧ g i = m ∧ 0 < m) := by
  induction n with
  | zero => exact ⟨0, 0, rfl, fun s hs => absurd hs (Nat.not_lt_zero s), Or.inl ⟨rfl, rfl⟩⟩
  | succ n ih =>
      obtain ⟨m, i, heq, hle, hat⟩ := ih fun s hs => hf s (Nat.lt_succ_of_lt hs)
      have hstep : argmax (n + 1) f = some (if m < g n then (g n, n) else (m, i)) := by
        rw [argmax_succ, heq, hf n (Nat.lt_succ_self n)]
        rfl
      rw [hstep]
      by_cases hlt : m < g n
      · have hpos : 0 < g n := by
          rcases hat with ⟨hm, -⟩ | ⟨-, -, hm⟩
          · rwa [hm] at hlt
          · exact hm.trans hlt
        refine ⟨g n, n, by rw [if_pos hlt], fun s hs => ?_,
          Or.inr ⟨Nat.lt_succ_self n, rfl, hpos⟩⟩
        rcases Nat.lt_succ_iff_lt_or_eq.mp hs with hs | rfl
        · exact (hle s hs).trans hlt.le
        · exact le_rfl
      · refine ⟨m, i, by rw [if_neg hlt], fun s hs => ?_,
          hat.imp_right fun h => ⟨Nat.lt_succ_of_lt h.1, h.2⟩⟩
        rcases Nat.lt_succ_iff_lt_or_eq.mp hs with hs | rfl
        · exact hle s hs
        · exact not_lt.mp hlt

end Argmax

section ArgmaxNonneg

variable [CommSemiring K] [LinearOrder K] [CanonicallyOrderedAdd K]

/-- Over values that vanish from `n` on, the loop finds a maximal one among the first
`n`. -/
theorem argmax_attained {f : ℕ → Option K} {g : ℕ → K} (hn : 0 < n) (hle : n ≤ k)
    (hf : ∀ s < k, f s = some (g s)) (hzero : ∀ s, n ≤ s → s < k → g s = 0) :
    ∃ m i, argmax k f = some (m, i) ∧ i < n ∧ g i = m ∧ ∀ s < k, g s ≤ m := by
  obtain ⟨m, i, heq, hmax, hat⟩ := argmax_spec hf
  rcases hat with ⟨hm, rfl⟩ | ⟨hi, hgi, hpos⟩
  · refine ⟨m, 0, heq, hn, le_antisymm (hmax 0 (hn.trans_le hle)) ?_, hmax⟩
    rw [hm]
    exact zero_le
  · refine ⟨m, i, heq, ?_, hgi, hmax⟩
    by_contra hge
    rw [← hgi, hzero i (not_lt.mp hge) hi] at hpos
    exact lt_irrefl _ hpos

end ArgmaxNonneg

end V2I.Viterbi
