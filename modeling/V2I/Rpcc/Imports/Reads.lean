import V2I.Rpcc.Imports

/-!
# V2I.Rpcc.Imports.Reads

What one file gives when it is read from some place to its end (`ReadsFile`), as a relation on the
structure of the imports, and what that is in terms of the chains of imports: the files opened are
those at the ends of the chains (`ReadsFile.mem_opens`), as long as no statement is lost.
-/

namespace V2I.Rpcc

open List

variable {F D I : Type} {src : Sources F D} {root : F}

/-- Reading the statements `curr` of the current line and those on the lines `fp`, which begin with
number `k` of the file at the end of the chain `a` through the files `c`. The result is the chains
opened, the statements read and the number of statements lost. -/
inductive ReadsFile (src : Sources F D) : List ℕ → List F → ℕ → List (Statement D) →
    List (List (Statement D)) → List (List ℕ × List F) → List (Statement D) → ℕ → Prop
  | pop {a c k} : ReadsFile src a c k [] [] [] [] 0
  | load {a c k line fp opens handled lost} : ReadsFile src a c k line fp opens handled lost →
      ReadsFile src a c k [] (line :: fp) opens handled lost
  | decl {a c k d curr fp opens handled lost} :
      ReadsFile src a c (k + 1) curr fp opens handled lost →
      ReadsFile src a c k (.decl d :: curr) fp opens (.decl d :: handled) lost
  | skip {a c k name g curr fp opens handled lost} : (∀ ch ∈ name.chars, isWordChar ch) →
      src.findFile name.chars = some g → g ∈ c →
      ReadsFile src a c (k + 1 + curr.length) [] fp opens handled lost →
      ReadsFile src a c k (.import name :: curr) fp opens (.import name :: handled)
        (curr.length + lost)
  | push {a c k name g curr fp opens opens' handled handled' lost lost'} :
      (∀ ch ∈ name.chars, isWordChar ch) → src.findFile name.chars = some g → g ∉ c →
      ReadsFile src (a ++ [k]) (g :: c) 0 [] (src.lines g) opens handled lost →
      ReadsFile src a c (k + 1) curr fp opens' handled' lost' →
      ReadsFile src a c k (.import name :: curr) fp ((a ++ [k], g :: c) :: (opens ++ opens'))
        (.import name :: (handled ++ handled')) (lost + lost')

/-- The file at the end of each chain. -/
def ends (opens : List (List ℕ × List F)) : List F := opens.filterMap fun e => e.2.head?

@[simp]
theorem ends_cons (a : List ℕ) (g : F) (c : List F) (opens : List (List ℕ × List F)) :
    ends ((a, g :: c) :: opens) = g :: ends opens := rfl

@[simp]
theorem ends_append (opens opens' : List (List ℕ × List F)) :
    ends (opens ++ opens') = ends opens ++ ends opens' :=
  filterMap_append

/-! ## Chains -/

variable {a : List ℕ} {c : List F} {d : List F}

/-- The places of the imports determine the files. -/
theorem Chain.files_unique (h : Chain src root a c) (h' : Chain src root a d) : c = d := by
  induction h generalizing d with
  | root =>
    generalize ha : ([] : List ℕ) = a at h'
    cases h' with
    | root => rfl
    | «import» => simp at ha
  | @«import» a c f i name g hchain hi hg hnew ih =>
    generalize ha : a ++ [i] = a' at h'
    cases h' with
    | root => simp at ha
    | «import» hchain' hi' hg' _ =>
      obtain ⟨rfl, hii⟩ := append_inj' ha rfl
      cases hii
      obtain ⟨rfl, rfl⟩ := List.cons.inj (ih hchain')
      rw [hi] at hi'
      cases hi'
      rw [hg] at hg'
      cases hg'
      rfl

variable {f : F}

theorem Chain.import_inv {i : ℕ} (h : Chain src root (a ++ [i]) d) (ha : Chain src root a (f :: c))
    : ∃ name g, (src.statements f)[i]? = some (.import name) ∧
      src.findFile name.chars = some g ∧ g ∉ f :: c ∧ d = g :: f :: c := by
  generalize hb : a ++ [i] = b at h
  cases h with
  | root => simp at hb
  | «import» hchain hi hg hnew =>
    obtain ⟨rfl, hii⟩ := append_inj' hb rfl
    cases hii
    obtain ⟨rfl, rfl⟩ := List.cons.inj (ha.files_unique hchain)
    exact ⟨_, _, hi, hg, hnew, rfl⟩

/-- The beginning of a chain is a chain. -/
theorem Chain.of_prefix {b : List ℕ} (h : Chain src root b c) (hab : a <+: b) :
    ∃ d, Chain src root a d := by
  induction h with
  | root =>
    rw [prefix_nil.mp hab]
    exact ⟨_, .root⟩
  | «import» hchain hi hg hnew ih =>
    rcases prefix_concat_iff.mp hab with rfl | hab
    · exact ⟨_, .import hchain hi hg hnew⟩
    · exact ih hab

theorem Chain.nodup (h : Chain src root a c) : c.Nodup := by
  induction h with
  | root => exact nodup_singleton _
  | «import» _ _ _ hnew ih => exact nodup_cons.mpr ⟨hnew, ih⟩

theorem Chain.ne_nil (h : Chain src root a c) : c ≠ [] := by
  cases h <;> exact cons_ne_nil _ _

/-- A chain leads to each of its files. -/
theorem Chain.exists_of_mem (h : Chain src root a c) (hf : f ∈ c) :
    ∃ b d, Chain src root b (f :: d) := by
  induction h with
  | root =>
    rw [mem_singleton.mp hf]
    exact ⟨[], [], .root⟩
  | «import» hchain hi hg hnew ih =>
    rcases mem_cons.mp hf with rfl | hf
    · exact ⟨_, _, .import hchain hi hg hnew⟩
    · exact ih hf

/-- The files at the ends of the chains are the reachable ones. -/
theorem reachable_iff_chain : Reachable src root f ↔ ∃ a c, Chain src root a (f :: c) := by
  constructor
  · intro h
    induction h with
    | refl => exact ⟨[], [], .root⟩
    | @tail f g _ himp ih =>
      obtain ⟨a, c, hchain⟩ := ih
      obtain ⟨name, hname, hg⟩ := himp
      obtain ⟨i, hi⟩ := mem_iff_getElem?.mp hname
      by_cases hmem : g ∈ f :: c
      · exact hchain.exists_of_mem hmem
      · exact ⟨_, _, .import hchain hi hg hmem⟩
  · rintro ⟨a, c, hchain⟩
    generalize hfc : f :: c = d at hchain
    induction hchain generalizing f c with
    | root =>
      cases hfc
      exact .refl
    | «import» hchain hi hg _ ih =>
      cases hfc
      exact (ih _ rfl).tail ⟨_, mem_of_getElem? hi, hg⟩

/-! ## The files opened -/

/-- The statements from number `k` of the file `f` are those of `curr` and `fp`. -/
def At (src : Sources F D) (f : F) (k : ℕ) (curr : List (Statement D))
    (fp : List (List (Statement D))) : Prop :=
  (src.statements f).drop k = curr ++ fp.flatten

theorem At.start (f : F) : At src f 0 [] (src.lines f) := rfl

variable {fp : List (List (Statement D))} {curr : List (Statement D)} {s : Statement D}

theorem At.tail {k : ℕ} (h : At src f k (s :: curr) fp) : At src f (k + 1) curr fp := by
  rw [At, ← drop_drop, h]
  rfl

theorem At.omit {k : ℕ} (h : At src f k (s :: curr) fp) : At src f (k + 1 + curr.length) [] fp := by
  rw [At, ← drop_drop, h.tail]
  simp

theorem At.getElem {k : ℕ} (h : At src f k (s :: curr) fp) : (src.statements f)[k]? = some s := by
  rw [← head?_drop, h]
  rfl

theorem prefix_concat_append (a : List ℕ) (i j : ℕ) (b : List ℕ) :
    a ++ [i] <+: a ++ j :: b ↔ i = j := by
  rw [prefix_append_right_inj, cons_prefix_cons]
  simp

/-- What is opened is a chain through an import still to be read. -/
theorem ReadsFile.opens_spec {a c k curr fp opens handled lost}
    (h : ReadsFile src a (f :: c) k curr fp opens handled lost) (hat : At src f k curr fp)
    (ha : Chain src root a (f :: c)) :
    ∀ e ∈ opens, Chain src root e.1 e.2 ∧ ∃ i ≥ k, a ++ [i] <+: e.1 := by
  generalize hfc : f :: c = d at h
  induction h generalizing f c with
  | pop => simp
  | load _ ih =>
    subst hfc
    exact ih hat ha rfl
  | decl _ ih =>
    subst hfc
    intro e he
    obtain ⟨hchain, i, hi, hpre⟩ := ih hat.tail ha rfl e he
    exact ⟨hchain, i, by omega, hpre⟩
  | skip _ _ _ _ ih =>
    subst hfc
    intro e he
    obtain ⟨hchain, i, hi, hpre⟩ := ih hat.omit ha rfl e he
    exact ⟨hchain, i, by omega, hpre⟩
  | @push a _ k name g _ _ _ _ _ _ _ _ _ hg hnew _ _ ih ih' =>
    subst hfc
    have hpush : Chain src root (a ++ [k]) (g :: f :: c) := .import ha hat.getElem hg hnew
    intro e he
    rcases mem_cons.mp he with rfl | he
    · exact ⟨hpush, k, le_rfl, prefix_rfl⟩
    · rcases mem_append.mp he with he | he
      · obtain ⟨hchain, i, -, hpre⟩ := ih (.start g) hpush rfl e he
        exact ⟨hchain, k, le_rfl, (prefix_append _ _).trans hpre⟩
      · obtain ⟨hchain, i, hi, hpre⟩ := ih' hat.tail ha rfl e he
        exact ⟨hchain, i, by omega, hpre⟩

/-- No chain is opened twice. -/
theorem ReadsFile.opens_nodup {a c k curr fp opens handled lost}
    (h : ReadsFile src a (f :: c) k curr fp opens handled lost) (hat : At src f k curr fp)
    (ha : Chain src root a (f :: c)) : (opens.map Prod.fst).Nodup := by
  generalize hfc : f :: c = d at h
  induction h generalizing f c with
  | pop => simp
  | load _ ih =>
    subst hfc
    exact ih hat ha rfl
  | decl _ ih =>
    subst hfc
    exact ih hat.tail ha rfl
  | skip _ _ _ _ ih =>
    subst hfc
    exact ih hat.omit ha rfl
  | @push a _ k name g _ _ opens opens' _ _ _ _ _ hg hnew hsub hrest ih ih' =>
    subst hfc
    have hpush : Chain src root (a ++ [k]) (g :: f :: c) := .import ha hat.getElem hg hnew
    have hsub_spec := hsub.opens_spec (.start g) hpush
    have hrest_spec := hrest.opens_spec hat.tail ha
    rw [map_cons, map_append, nodup_cons, nodup_append]
    refine ⟨?_, ih (.start g) hpush rfl, ih' hat.tail ha rfl, ?_⟩
    · rw [mem_append, not_or]
      constructor
      · intro hmem
        obtain ⟨e, he, heq⟩ := mem_map.mp hmem
        obtain ⟨-, i, -, hpre⟩ := hsub_spec e he
        have := (heq ▸ hpre).length_le
        simp at this
      · intro hmem
        obtain ⟨e, he, heq⟩ := mem_map.mp hmem
        obtain ⟨-, i, hi, hpre⟩ := hrest_spec e he
        rw [heq, prefix_concat_append] at hpre
        omega
    · intro x hx y hy hxy
      obtain ⟨e, he, rfl⟩ := mem_map.mp hx
      obtain ⟨e', he', rfl⟩ := mem_map.mp hy
      obtain ⟨-, i, -, hpre⟩ := hsub_spec e he
      obtain ⟨-, j, hj, hpre'⟩ := hrest_spec e' he'
      have hk : a ++ [k] <+: e.1 := (prefix_append _ _).trans hpre
      obtain ⟨b, hb⟩ := hk
      rw [← hxy, ← hb, append_assoc, singleton_append, prefix_concat_append] at hpre'
      omega

/-- **When no statement is lost** every chain through an import still to be read is opened. -/
theorem ReadsFile.mem_opens {a c k curr fp opens handled lost}
    (h : ReadsFile src a (f :: c) k curr fp opens handled lost) (hat : At src f k curr fp)
    (ha : Chain src root a (f :: c)) (hlost : lost = 0) {b : List ℕ} (hb : Chain src root b d)
    {i : ℕ} (hi : k ≤ i) (hpre : a ++ [i] <+: b) : (b, d) ∈ opens := by
  generalize hfc : f :: c = c' at h
  induction h generalizing f c i with
  | pop =>
    subst hfc
    obtain ⟨d', hd'⟩ := hb.of_prefix hpre
    obtain ⟨name, g, hstmt, -⟩ := hd'.import_inv ha
    obtain ⟨hlt, -⟩ := List.getElem?_eq_some_iff.mp hstmt
    have hnil : (src.statements f).drop _ = [] := hat
    rw [List.drop_eq_nil_iff] at hnil
    omega
  | load _ ih =>
    subst hfc
    exact ih hat ha hlost hi hpre rfl
  | decl _ ih =>
    subst hfc
    rcases hi.eq_or_lt with rfl | hi
    · obtain ⟨d', hd'⟩ := hb.of_prefix hpre
      obtain ⟨name, g, hstmt, -⟩ := hd'.import_inv ha
      rw [hat.getElem] at hstmt
      cases hstmt
    · exact ih hat.tail ha hlost hi hpre rfl
  | skip hword hg hmem _ ih =>
    subst hfc
    have hnil := eq_nil_of_length_eq_zero (Nat.eq_zero_of_add_eq_zero_right hlost)
    subst hnil
    rcases hi.eq_or_lt with rfl | hi
    · obtain ⟨d', hd'⟩ := hb.of_prefix hpre
      obtain ⟨name', g', hstmt, hg', hnew, -⟩ := hd'.import_inv ha
      rw [hat.getElem] at hstmt
      cases hstmt
      rw [hg] at hg'
      cases hg'
      exact absurd hmem hnew
    · exact ih hat.omit ha (by simpa using hlost) hi hpre rfl
  | @push a _ k name g _ _ opens opens' _ _ _ _ hword hg hnew _ _ ih ih' =>
    subst hfc
    have hpush : Chain src root (a ++ [k]) (g :: f :: c) := .import ha hat.getElem hg hnew
    rcases hi.eq_or_lt with rfl | hi
    · obtain ⟨b', rfl⟩ := hpre
      cases b' with
      | nil =>
        rw [append_nil] at hb ⊢
        rw [hb.files_unique hpush]
        exact mem_cons_self
      | cons j b' =>
        have hsub := ih (.start g) hpush (by omega) (Nat.zero_le j)
          ⟨b', by rw [append_assoc, singleton_append]⟩ rfl
        exact .tail _ (mem_append_left _ hsub)
    · exact .tail _ (mem_append_right _ (ih' hat.tail ha (by omega) hi hpre rfl))

end V2I.Rpcc
