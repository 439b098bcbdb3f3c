import V2I.Rpcc.Imports.Reads
import Mathlib.Data.List.Pairwise

/-!
# V2I.Rpcc.Imports.Once

When the parser reads every file once.
-/

namespace V2I.Rpcc

open List

variable {F D I : Type} {src : Sources F D} {root : F}

/-! ## Statements -/

/-- Every statement of the files is read or lost. -/
theorem ReadsFile.length_handled {a c k curr fp opens handled lost}
    (h : ReadsFile src a c k curr fp opens handled lost) :
    handled.length + lost =
      (curr ++ fp.flatten).length + ((ends opens).flatMap src.statements).length := by
  induction h with
  | pop => rfl
  | load _ ih => simpa [flatten_cons] using ih
  | decl _ ih =>
    simp only [length_cons, cons_append] at ih ⊢
    omega
  | skip _ _ _ _ ih =>
    simp only [length_cons, cons_append, length_append, nil_append] at ih ⊢
    omega
  | @push a c k name g _ _ _ _ _ _ _ _ _ _ _ _ _ ih ih' =>
    simp only [length_cons, cons_append, length_append, nil_append, ends_cons,
      ends_append, flatMap_cons, flatMap_append, Sources.statements] at ih ih' ⊢
    omega

/-- **Without losses** the statements read are those of the files opened. -/
theorem ReadsFile.perm_handled {a c k curr fp opens handled lost}
    (h : ReadsFile src a c k curr fp opens handled lost) (hlost : lost = 0) :
    handled.Perm (curr ++ fp.flatten ++ (ends opens).flatMap src.statements) := by
  induction h with
  | pop => exact .nil
  | load _ ih => simpa [flatten_cons] using ih hlost
  | decl _ ih => exact (ih hlost).cons _
  | skip _ _ _ _ ih =>
    have hnil := eq_nil_of_length_eq_zero (Nat.eq_zero_of_add_eq_zero_right hlost)
    subst hnil
    exact (ih (by simpa using hlost)).cons _
  | @push a c k name g curr fp opens opens' _ _ _ _ _ _ _ _ _ ih ih' =>
    have hboth := (ih (by omega)).append (ih' (by omega))
    refine (hboth.cons _).trans ?_
    rw [cons_append, cons_append]
    refine List.Perm.cons _ ?_
    rw [ends_cons, ends_append, flatMap_cons, flatMap_append, nil_append,
      ← append_assoc (src.statements g)]
    -- the statements of the file and of the files it opens go behind those of the line
    exact perm_append_comm_assoc _ _ _

variable {fp : List (List (Statement D))} {curr : List (Statement D)} {c : List F}

theorem Tidy.cons_decl {d : D} :
    Tidy src c ((.decl d :: curr) :: fp) ↔ Tidy src c (curr :: fp) := by
  constructor
  · intro h l hl before name after heq
    rcases mem_cons.mp hl with rfl | hl
    · exact h _ mem_cons_self (.decl d :: before) name after (by rw [heq, cons_append])
    · exact h l (.tail _ hl) before name after heq
  · intro h l hl before name after heq
    rcases mem_cons.mp hl with rfl | hl
    · cases before with
      | nil => cases heq
      | cons s before => exact h _ mem_cons_self before name after (List.cons.inj heq).2
    · exact h l (.tail _ hl) before name after heq

theorem Tidy.cons_import {name : FileName} :
    Tidy src c ((.import name :: curr) :: fp) ↔ ((∀ ch ∈ name.chars, isWordChar ch) ∧
      ∃ g, src.findFile name.chars = some g ∧ (g ∈ c → curr = [])) ∧ Tidy src c (curr :: fp) := by
  constructor
  · intro h
    refine ⟨h _ mem_cons_self [] name curr rfl, fun l hl before name' after heq => ?_⟩
    rcases mem_cons.mp hl with rfl | hl
    · exact h _ mem_cons_self (.import name :: before) name' after
        (by rw [heq, cons_append])
    · exact h l (.tail _ hl) before name' after heq
  · rintro ⟨hname, h⟩ l hl before name' after heq
    rcases mem_cons.mp hl with rfl | hl
    · cases before with
      | nil =>
        cases heq
        exact hname
      | cons s before => exact h _ mem_cons_self before name' after (List.cons.inj heq).2
    · exact h l (.tail _ hl) before name' after heq

theorem Tidy.cons_nil : Tidy src c ([] :: fp) ↔ Tidy src c fp := by
  constructor
  · exact fun h l hl => h l (.tail _ hl)
  · intro h l hl before name after heq
    rcases mem_cons.mp hl with rfl | hl
    · simp at heq
    · exact h l hl before name after heq

/-- What has been read without losses was tidy. -/
theorem ReadsFile.tidy {a c k curr fp opens handled lost}
    (h : ReadsFile src a c k curr fp opens handled lost) (hlost : lost = 0) :
    Tidy src c (curr :: fp) ∧
      ∀ e ∈ opens, ∀ g d, e.2 = g :: d → Tidy src (g :: d) (src.lines g) := by
  induction h with
  | pop => exact ⟨Tidy.cons_nil.mpr (fun _ hl => by cases hl), by simp⟩
  | load _ ih => exact ⟨Tidy.cons_nil.mpr (ih hlost).1, (ih hlost).2⟩
  | decl _ ih => exact ⟨Tidy.cons_decl.mpr (ih hlost).1, (ih hlost).2⟩
  | skip hword hg hmem _ ih =>
    have hnil := eq_nil_of_length_eq_zero (Nat.eq_zero_of_add_eq_zero_right hlost)
    subst hnil
    obtain ⟨htidy, hopens⟩ := ih (by simpa using hlost)
    exact ⟨Tidy.cons_import.mpr ⟨⟨hword, _, hg, fun _ => rfl⟩, htidy⟩, hopens⟩
  | push hword hg hnew _ _ ih ih' =>
    obtain ⟨htidy, hopens⟩ := ih (by omega)
    obtain ⟨htidy', hopens'⟩ := ih' (by omega)
    refine ⟨Tidy.cons_import.mpr ⟨⟨hword, _, hg, fun h => absurd h hnew⟩, htidy'⟩, ?_⟩
    intro e he g d hgd
    rcases mem_cons.mp he with rfl | he
    · obtain ⟨rfl, rfl⟩ := List.cons.inj hgd
      exact Tidy.cons_nil.mp htidy
    · rcases mem_append.mp he with he | he
      · exact hopens e he g d hgd
      · exact hopens' e he g d hgd

variable {a : List ℕ}

/-- One statement more can be read when the rest of the line can. -/
theorem exists_readsFile_cons {f : F} (ha : Chain src root a (f :: c))
    (hpush : ∀ k g, Chain src root (a ++ [k]) (g :: f :: c) → ∃ opens handled,
      ReadsFile src (a ++ [k]) (g :: f :: c) 0 [] (src.lines g) opens handled 0)
    {k : ℕ} {s : Statement D} (hat : At src f k (s :: curr) fp)
    (hrest : Tidy src (f :: c) ((s :: curr) :: fp))
    (ih : Tidy src (f :: c) (curr :: fp) →
      ∃ opens handled, ReadsFile src a (f :: c) (k + 1) curr fp opens handled 0) :
    ∃ opens handled, ReadsFile src a (f :: c) k (s :: curr) fp opens handled 0 := by
  cases s with
  | decl d =>
    obtain ⟨opens, handled, h⟩ := ih (Tidy.cons_decl.mp hrest)
    exact ⟨_, _, .decl h⟩
  | «import» name =>
    obtain ⟨⟨hword, g, hg, hlast⟩, hrest⟩ := Tidy.cons_import.mp hrest
    obtain ⟨opens, handled, h⟩ := ih hrest
    by_cases hmem : g ∈ f :: c
    · obtain rfl := hlast hmem
      have hskip : ReadsFile src a (f :: c) k [.import name] fp opens (.import name :: handled)
          (([] : List (Statement D)).length + 0) := .skip hword hg hmem h
      exact ⟨_, _, hskip⟩
    · obtain ⟨opens', handled', h'⟩ := hpush k g (.import ha hat.getElem hg hmem)
      exact ⟨_, _, .push hword hg hmem h' h⟩

/-- A tidy file can be read to its end when the files that it imports can. -/
theorem exists_readsFile_of {f : F} (ha : Chain src root a (f :: c))
    (hpush : ∀ k g, Chain src root (a ++ [k]) (g :: f :: c) → ∃ opens handled,
      ReadsFile src (a ++ [k]) (g :: f :: c) 0 [] (src.lines g) opens handled 0)
    (fp : List (List (Statement D))) {k : ℕ} (hat : At src f k curr fp)
    (hrest : Tidy src (f :: c) (curr :: fp)) :
    ∃ opens handled, ReadsFile src a (f :: c) k curr fp opens handled 0 := by
  induction fp generalizing k curr with
  | nil =>
    induction curr generalizing k with
    | nil => exact ⟨_, _, .pop⟩
    | cons s curr ih => exact exists_readsFile_cons ha hpush hat hrest (ih hat.tail)
  | cons line fp ihfp =>
    induction curr generalizing k with
    | nil =>
      obtain ⟨opens, handled, h⟩ := ihfp hat (Tidy.cons_nil.mp hrest)
      exact ⟨_, _, .load h⟩
    | cons s curr ih => exact exists_readsFile_cons ha hpush hat hrest (ih hat.tail)

/-- **Tidy files** of which finitely many are reachable can be read to the end. -/
theorem exists_readsFile (hfin : {f | Reachable src root f}.Finite)
    (htidy : ∀ a f c, Chain src root a (f :: c) → Tidy src (f :: c) (src.lines f)) (n : ℕ) {f : F}
    (ha : Chain src root a (f :: c)) (hn : hfin.toFinset.card ≤ n + (f :: c).length) :
    ∃ opens handled, ReadsFile src a (f :: c) 0 [] (src.lines f) opens handled 0 := by
  have hlength : ∀ b d, Chain src root b d → d.length ≤ hfin.toFinset.card := by
    classical
    intro b d hd
    rw [← toFinset_card_of_nodup hd.nodup]
    refine Finset.card_le_card fun x hx => ?_
    rw [mem_toFinset] at hx
    exact hfin.mem_toFinset.mpr (reachable_iff_chain.mpr (hd.exists_of_mem hx))
  induction n generalizing a f c with
  | zero =>
    refine exists_readsFile_of ha (fun k g hg => ?_) _ (.start f)
      (Tidy.cons_nil.mpr (htidy a f c ha))
    have := hlength _ _ hg
    simp only [length_cons] at this hn
    omega
  | succ n ih =>
    refine exists_readsFile_of ha (fun k g hg => ih hg ?_) _ (.start f)
      (Tidy.cons_nil.mpr (htidy a f c ha))
    simp only [length_cons] at hn ⊢
    omega

/-! ## Files opened -/

theorem mem_ends {opens : List (List ℕ × List F)} {g : F} :
    g ∈ ends opens ↔ ∃ b d, (b, g :: d) ∈ opens := by
  simp only [ends, mem_filterMap]
  constructor
  · rintro ⟨⟨b, d⟩, he, hg⟩
    cases d with
    | nil => cases hg
    | cons g' d =>
      cases hg
      exact ⟨b, d, he⟩
  · rintro ⟨b, d, he⟩
    exact ⟨_, he, rfl⟩

/-- The files at the ends of different chains are different exactly when no two chains have one
end. -/
theorem ends_nodup_iff {opens : List (List ℕ × List F)} (hne : ∀ e ∈ opens, e.2 ≠ [])
    (hnodup : (opens.map Prod.fst).Nodup) : (ends opens).Nodup ↔
      ∀ a b f c d, (a, f :: c) ∈ opens → (b, f :: d) ∈ opens → a = b := by
  induction opens with
  | nil => simp [ends]
  | cons e opens ih =>
    obtain ⟨a₀, c₀⟩ := e
    obtain ⟨g, c₀, rfl⟩ := exists_cons_of_ne_nil (hne _ mem_cons_self)
    rw [map_cons, nodup_cons] at hnodup
    have hih := ih (fun e he => hne e (.tail _ he)) hnodup.2
    rw [ends_cons, nodup_cons, hih]
    constructor
    · rintro ⟨hg, hrest⟩ a b f c d ha hb
      rcases mem_cons.mp ha with ha | ha
      · cases ha
        rcases mem_cons.mp hb with hb | hb
        · cases hb
          rfl
        · exact absurd (mem_ends.mpr ⟨b, d, hb⟩) hg
      · rcases mem_cons.mp hb with hb | hb
        · cases hb
          exact absurd (mem_ends.mpr ⟨a, c, ha⟩) hg
        · exact hrest a b f c d ha hb
    · intro h
      refine ⟨fun hg => ?_, fun a b f c d ha hb => h a b f c d (.tail _ ha) (.tail _ hb)⟩
      obtain ⟨b, d, he⟩ := mem_ends.mp hg
      have hsame := h a₀ b g c₀ d mem_cons_self (.tail _ he)
      exact hnodup.1 (mem_map.mpr ⟨_, he, hsame.symm⟩)

/-- The chains opened, after the root, are all there are. -/
theorem mem_opens_iff {opens handled lost}
    (h : ReadsFile src [] [root] 0 [] (src.lines root) opens handled lost) (hlost : lost = 0)
    {b : List ℕ} {d : List F} : Chain src root b d ↔ b = [] ∧ d = [root] ∨ (b, d) ∈ opens := by
  constructor
  · intro hb
    cases b with
    | nil => exact .inl ⟨rfl, hb.files_unique .root⟩
    | cons i b => exact .inr (h.mem_opens (.start root) .root hlost hb (Nat.zero_le i) ⟨b, rfl⟩)
  · rintro (⟨rfl, rfl⟩ | he)
    · exact .root
    · exact (h.opens_spec (.start root) .root _ he).1

/-- No file is opened twice exactly when the chains to it are unique. -/
theorem nodup_iff_unique {opens handled lost}
    (h : ReadsFile src [] [root] 0 [] (src.lines root) opens handled lost) (hlost : lost = 0) :
    (root :: ends opens).Nodup ↔
      ∀ a b f c d, Chain src root a (f :: c) → Chain src root b (f :: d) → a = b := by
  have hspec := h.opens_spec (.start root) .root
  have hne : ∀ e ∈ opens, e.2 ≠ [] := fun e he => (hspec e he).1.ne_nil
  rw [nodup_cons]
  constructor
  · rintro ⟨hroot, hnodup⟩ a b f c d ha hb
    rcases (mem_opens_iff h hlost).mp ha with ⟨rfl, hc⟩ | ha'
    · obtain ⟨rfl, rfl⟩ := List.cons.inj hc
      rcases (mem_opens_iff h hlost).mp hb with ⟨rfl, -⟩ | hb'
      · rfl
      · exact absurd (mem_ends.mpr ⟨b, d, hb'⟩) hroot
    · rcases (mem_opens_iff h hlost).mp hb with ⟨rfl, hd⟩ | hb'
      · obtain ⟨rfl, rfl⟩ := List.cons.inj hd
        exact absurd (mem_ends.mpr ⟨a, c, ha'⟩) hroot
      · exact (ends_nodup_iff hne (h.opens_nodup (.start root) .root)).mp hnodup a b f c d ha' hb'
  · intro hunique
    refine ⟨fun hroot => ?_, (ends_nodup_iff hne (h.opens_nodup (.start root) .root)).mpr ?_⟩
    · obtain ⟨b, d, he⟩ := mem_ends.mp hroot
      obtain ⟨hb, i, -, hpre⟩ := hspec _ he
      have hnil := hunique [] b root [] d .root hb
      rw [← hnil] at hpre
      exact absurd hpre.length_le (by simp)
    · exact fun a b f c d ha hb => hunique a b f c d (hspec _ ha).1 (hspec _ hb).1

/-- The files opened are the reachable ones. -/
theorem mem_opened_iff {opens handled lost}
    (h : ReadsFile src [] [root] 0 [] (src.lines root) opens handled lost) (hlost : lost = 0)
    {f : F} : f ∈ root :: ends opens ↔ Reachable src root f := by
  rw [reachable_iff_chain, mem_cons, mem_ends]
  constructor
  · rintro (rfl | ⟨b, d, he⟩)
    · exact ⟨[], [], .root⟩
    · exact ⟨b, d, (mem_opens_iff h hlost).mpr (.inr he)⟩
  · rintro ⟨a, c, ha⟩
    rcases (mem_opens_iff h hlost).mp ha with ⟨-, hc⟩ | ha
    · exact .inl (List.cons.inj hc).1
    · exact .inr ⟨a, c, ha⟩

/-- The names defined in files of which none occurs twice. -/
theorem idents_nodup_iff {ident : D → Option I} {opened : List F} (hopened : opened.Nodup) :
    (opened.flatMap (src.idents ident)).Nodup ↔ (∀ f ∈ opened, (src.idents ident f).Nodup) ∧
      ∀ f ∈ opened, ∀ g ∈ opened, f ≠ g → (src.idents ident f).Disjoint (src.idents ident g) := by
  rw [nodup_flatMap]
  refine and_congr_right fun _ => ?_
  constructor
  · intro hpair f hf g hg hfg
    have hsymm : Std.Symm (Function.onFun List.Disjoint (src.idents ident)) :=
      ⟨fun _ _ h => h.symm⟩
    exact hpair.forall hf hg hfg
  · intro hdisj
    exact (List.Nodup.pairwise_of_forall_ne hopened fun f hf g hg hfg => hdisj f hf g hg hfg)

/-! ## The parser reads -/

/-- What looking up the name of an import leaves in the record. -/
def Statement.lookup? : Statement D → Option (FileName × List Char)
  | .decl _ => none
  | .import name => some (name, name.chars)

@[simp]
theorem Statement.lookup?_decl (d : D) : (Statement.decl d).lookup? = none := rfl

@[simp]
theorem Statement.lookup?_import (name : FileName) :
    (Statement.import name : Statement D).lookup? = some (name, name.chars) := rfl

/-- The parser when it has read some statements. -/
def Parser.after (p : Parser F D) (files : List (SrcfileNode F D)) (opens : List (List ℕ × List F))
    (handled : List (Statement D)) : Parser F D where
  files := files
  opened := p.opened ++ ends opens
  handled := p.handled ++ handled
  lookedUp := p.lookedUp ++ handled.filterMap Statement.lookup?
  defined := p.defined ++ handled.filterMap Statement.decl?

/-- The record of a definition. -/
def Parser.readDecl (p : Parser F D) (d : D) : Parser F D :=
  { p with handled := p.handled ++ [.decl d], defined := p.defined ++ [d] }

/-- The record of an import. -/
def Parser.readImport (p : Parser F D) (name : FileName) : Parser F D :=
  { p with
    handled := p.handled ++ [.import name]
    lookedUp := p.lookedUp ++ [(name, name.chars)] }

theorem Parser.after_nil (p : Parser F D) (files : List (SrcfileNode F D)) :
    p.after files [] [] = { p with files } := by
  simp [Parser.after, ends]

theorem Parser.after_decl (p : Parser F D) (files : List (SrcfileNode F D))
    (opens : List (List ℕ × List F)) (d : D) (handled : List (Statement D)) :
    p.after files opens (.decl d :: handled) = (p.readDecl d).after files opens handled := by
  simp [Parser.after, Parser.readDecl, filterMap_cons]

theorem Parser.after_import (p : Parser F D) (files : List (SrcfileNode F D))
    (opens : List (List ℕ × List F)) (name : FileName) (handled : List (Statement D)) :
    p.after files opens (.import name :: handled) =
      (p.readImport name).after files opens handled := by
  simp [Parser.after, Parser.readImport, filterMap_cons]

theorem Parser.after_push (p : Parser F D) (files files' : List (SrcfileNode F D)) (a : List ℕ)
    (g : F) (c : List F) (opens opens' : List (List ℕ × List F)) (name : FileName)
    (handled handled' : List (Statement D)) :
    p.after files ((a, g :: c) :: (opens ++ opens')) (.import name :: (handled ++ handled')) =
      (Parser.after { p.readImport name with opened := p.opened ++ [g] } files' opens
        handled).after files opens' handled' := by
  have hopened : (p.readImport name).opened = p.opened := rfl
  rw [Parser.after_import]
  simp [Parser.after, hopened]

theorem cutFileName_text (name : FileName) : cutFileName name.text = .ok name.chars := by
  have hhead : name.text.head? = some quote := rfl
  have hlast : name.text.getLast? = some quote := by
    rw [FileName.text, ← cons_append, getLast?_concat]
  rw [cutFileName, if_neg (not_not.mpr hhead), if_neg (not_not.mpr hlast)]
  simp [FileName.text]

variable {name : FileName}

theorem text_isWord (hword : ∀ ch ∈ name.chars, isWordChar ch) :
    ∀ ch ∈ name.text, isWordChar ch := by
  have hquote : isWordChar quote = true := by decide
  intro ch hch
  rcases mem_cons.mp hch with rfl | hch
  · exact hquote
  · rcases mem_append.mp hch with hch | hch
    · exact hword ch hch
    · rwa [mem_singleton.mp hch]

/-- What is cut out of a token is the name only if the name is one symbol. -/
theorem isWord_of_cutFileName (h : cutFileName (name.text.takeWhile isWordChar) = .ok name.chars) :
    ∀ ch ∈ name.chars, isWordChar ch := by
  unfold cutFileName at h
  split at h
  · cases h
  · split at h
    · cases h
    · have hlen := congrArg List.length (Except.ok.inj h)
      rw [length_take, length_drop] at hlen
      intro ch hch
      have hpos := length_pos_of_mem hch
      have htext : name.text.length = name.chars.length + 2 := by simp [FileName.text]
      have hpre := takeWhile_prefix isWordChar (l := name.text)
      have hall : name.text.takeWhile isWordChar = name.text := hpre.eq_of_length (by omega)
      refine takeWhile_eq_self_iff.mp hall ch ?_
      simp [FileName.text, hch]

variable [DecidableEq F] [DecidableEq I] {ident : D → Option I} {files : List (SrcfileNode F D)}

theorem isFullNameExist_iff {g : F} : isFullNameExist files g ↔ g ∈ files.map (·.fullFileName) := by
  simp [isFullNameExist]

/-- An import whose name is one symbol. -/
theorem parseImportStatement_word {g : F} (hword : ∀ ch ∈ name.chars, isWordChar ch)
    (hg : src.findFile name.chars = some g) (p : Parser F D) (node : SrcfileNode F D)
    (files : List (SrcfileNode F D)) :
    parseImportStatement src p node files name =
      if g ∈ (node :: files).map (·.fullFileName) then
        .ok { p with
          files := { node with currLine := [] } :: files
          lookedUp := p.lookedUp ++ [(name, name.chars)] }
      else
        .ok { p with
          files := ⟨g, [], src.lines g⟩ :: node :: files
          opened := p.opened ++ [g]
          lookedUp := p.lookedUp ++ [(name, name.chars)] } := by
  have htake := takeWhile_eq_self_iff.mpr (text_isWord hword)
  have hdrop := dropWhile_eq_nil_iff.mpr (text_isWord hword)
  simp only [parseImportStatement, htake, hdrop, cutFileName_text, hg, isFullNameExist_iff, if_true,
    Parser.push]

variable {p q : Parser F D}

/-- An import without a message. -/
theorem parseImportStatement_ok {node : SrcfileNode F D}
    (h : parseImportStatement src p node files name = .ok q) :
    ∃ filename g, cutFileName (name.text.takeWhile isWordChar) = .ok filename ∧
      src.findFile filename = some g ∧ q.lookedUp = p.lookedUp ++ [(name, filename)] ∧
      q.defined = p.defined := by
  unfold parseImportStatement at h
  dsimp only at h
  split at h
  · cases h
  · next filename hcut =>
    split at h
    · cases h
    · next g hg =>
      refine ⟨filename, g, hcut, hg, ?_⟩
      split at h
      · cases h
        exact ⟨rfl, rfl⟩
      · cases h
        exact ⟨rfl, rfl⟩

omit [DecidableEq F] in
/-- The name of a statement that is read is not used yet. -/
theorem isIdentifierUsed_eq_false {d : D} {ds : List D}
    (h : ((p.defined ++ d :: ds).filterMap ident).Nodup) : p.isIdentifierUsed ident d = false := by
  cases hd : ident d with
  | none => simp [Parser.isIdentifierUsed, hd]
  | some x =>
    rw [filterMap_append, filterMap_cons_some hd, nodup_append] at h
    have hx : x ∉ p.defined.filterMap ident := fun hx => h.2.2 x hx x mem_cons_self rfl
    simpa [Parser.isIdentifierUsed, hd] using hx

theorem step_pop (p : Parser F D) (f : F) (files : List (SrcfileNode F D)) :
    step src ident { p with files := ⟨f, [], []⟩ :: files } = .inr { p with files } := rfl

theorem step_load (p : Parser F D) (f : F) (files : List (SrcfileNode F D))
    (line : List (Statement D)) (fp : List (List (Statement D))) :
    step src ident { p with files := ⟨f, [], line :: fp⟩ :: files } =
      .inr { p with files := ⟨f, line.map some, fp⟩ :: files } := rfl

theorem step_decl {d : D} (hused : p.isIdentifierUsed ident d = false) (f : F)
    (curr : List (Option (Statement D))) (fp : List (List (Statement D)))
    (files : List (SrcfileNode F D)) :
    step src ident { p with files := ⟨f, some (.decl d) :: curr, fp⟩ :: files } =
      .inr { p.readDecl d with files := ⟨f, curr, fp⟩ :: files } :=
  if_neg (by rw [Bool.not_eq_true]; exact hused)

theorem step_import {g : F} (hword : ∀ ch ∈ name.chars, isWordChar ch)
    (hg : src.findFile name.chars = some g) (p : Parser F D) (f : F)
    (curr : List (Option (Statement D))) (fp : List (List (Statement D)))
    (files : List (SrcfileNode F D)) :
    step src ident { p with files := ⟨f, some (.import name) :: curr, fp⟩ :: files } =
      .inr (if g ∈ f :: files.map (·.fullFileName) then
        { p.readImport name with files := ⟨f, [], fp⟩ :: files }
      else
        { p.readImport name with
          files := ⟨g, [], src.lines g⟩ :: ⟨f, curr, fp⟩ :: files
          opened := p.opened ++ [g] }) := by
  by_cases hmem : g ∈ f :: files.map (·.fullFileName)
  · simp only [step, parseImportStatement_word hword hg, map_cons, if_pos hmem]
    rfl
  · simp only [step, parseImportStatement_word hword hg, map_cons, if_neg hmem]
    rfl

/-- **Reading a file to its end** is what the parser does, when no name is defined twice. -/
theorem ReadsFile.reaches {a c k curr fp opens handled lost}
    (h : ReadsFile src a c k curr fp opens handled lost) {f : F}
    (hc : f :: files.map (·.fullFileName) = c) (p : Parser F D)
    (hident : ((p.defined ++ handled.filterMap Statement.decl?).filterMap ident).Nodup) :
    Loop.Reaches (step src ident) { p with files := ⟨f, curr.map some, fp⟩ :: files }
      (p.after files opens handled) := by
  induction h generalizing f files p with
  | pop =>
    rw [Parser.after_nil]
    exact .head (step_pop ..) (.refl _)
  | load _ ih => exact .head (step_load ..) (ih hc p hident)
  | decl _ ih =>
    rw [Parser.after_decl]
    refine .head (step_decl (isIdentifierUsed_eq_false hident) ..) (ih hc _ ?_)
    simpa [Parser.readDecl] using hident
  | skip hword hg hmem _ ih =>
    subst hc
    rw [Parser.after_import]
    refine .head (step_import hword hg ..) ?_
    rw [if_pos hmem]
    exact ih rfl _ hident
  | @push _ _ _ name g curr fp opens opens' handled handled' _ _ hword hg hnew _ _ ih ih' =>
    subst hc
    rw [Parser.after_push p files (⟨f, curr.map some, fp⟩ :: files)]
    refine .head (step_import hword hg ..) ?_
    rw [if_neg hnew]
    have hident : (((p.defined ++ handled.filterMap Statement.decl?) ++
        handled'.filterMap Statement.decl?).filterMap ident).Nodup := by
      simpa [filterMap_cons] using hident
    have hsub : ((p.defined ++ handled.filterMap Statement.decl?).filterMap ident).Nodup := by
      rw [filterMap_append] at hident
      exact (nodup_append.mp hident).1
    exact (ih rfl { p.readImport name with opened := p.opened ++ [g] } hsub).trans
      (ih' rfl (Parser.after { p.readImport name with opened := p.opened ++ [g] }
        (⟨f, curr.map some, fp⟩ :: files) opens handled) hident)

/-- A run ends without a message when all files are closed. -/
theorem step_eq_ok (h : step src ident p = .inl (.ok q)) : q = p ∧ p.files = [] := by
  unfold step at h
  split at h
  · next hnil =>
    cases h
    exact ⟨rfl, hnil⟩
  · split at h
    · split at h <;> cases h
    · cases h
    · split at h <;> cases h
    · split at h <;> cases h

/-- What a round adds to the record. -/
theorem step_grows (h : step src ident p = .inr q) :
    (∀ e ∈ p.lookedUp, e ∈ q.lookedUp) ∧
      ((p.defined.filterMap ident).Nodup → (q.defined.filterMap ident).Nodup) := by
  unfold step at h
  split at h
  · cases h
  · split at h
    · split at h
      · cases h
        exact ⟨fun _ => id, id⟩
      · cases h
        exact ⟨fun _ => id, id⟩
    · cases h
    · next d _ _ =>
      split at h
      · cases h
      · next hused =>
        cases h
        refine ⟨fun _ => id, fun hnodup => ?_⟩
        rw [filterMap_append]
        cases hd : ident d with
        | none => simpa [hd] using hnodup
        | some x =>
          simp only [Parser.isIdentifierUsed, hd, contains_eq_mem, decide_eq_true_eq] at hused
          rw [filterMap_cons_some hd, filterMap_nil, ← concat_eq_append]
          exact (nodup_concat _ _).mpr ⟨hused, hnodup⟩
    · split at h
      · cases h
      · next hparse =>
        cases h
        obtain ⟨filename, g, -, -, hlookedUp, hdefined⟩ := parseImportStatement_ok hparse
        rw [hlookedUp, hdefined]
        exact ⟨fun e he => mem_append_left _ he, id⟩

/-- A run keeps what has been looked up, and defines no name twice. -/
theorem Returns.grows (h : Loop.Returns (step src ident) p (.ok q)) :
    (∀ e ∈ p.lookedUp, e ∈ q.lookedUp) ∧
      ((p.defined.filterMap ident).Nodup → (q.defined.filterMap ident).Nodup) := by
  obtain ⟨t, hreach, hend⟩ := Loop.returns_iff.mp h
  obtain ⟨rfl, -⟩ := step_eq_ok hend
  refine ⟨?_, hreach.invariant fun s s' hs hround => (step_grows hround).2 hs⟩
  intro e he
  exact hreach.invariant (I := fun s => e ∈ s.lookedUp)
    (fun s s' hs hround => (step_grows hround).1 e hs) he

/-- An import that looks up the name that it gives names a file by one symbol. -/
theorem isWord_of_step {f : F} {curr : List (Option (Statement D))} {fp : List (List (Statement D))}
    (h : step src ident { p with files := ⟨f, some (.import name) :: curr, fp⟩ :: files } = .inr q)
    (hq : ∀ e ∈ q.lookedUp, e.2 = e.1.chars) :
    (∀ ch ∈ name.chars, isWordChar ch) ∧ ∃ g, src.findFile name.chars = some g := by
  simp only [step] at h
  split at h
  · cases h
  · next hparse =>
    cases h
    obtain ⟨filename, g, hcut, hg, hlookedUp, -⟩ := parseImportStatement_ok hparse
    have hname : filename = name.chars := hq (name, filename) (by simp [hlookedUp])
    rw [hname] at hcut hg
    exact ⟨isWord_of_cutFileName hcut, g, hg⟩

/-- **What the parser does** in a file is reading it to its end, in a run that ends without a
message and looks up the names that are given. -/
theorem exists_reads {n : ℕ} (hq : ∀ e ∈ q.lookedUp, e.2 = e.1.chars) (p : Parser F D) (f : F)
    (files : List (SrcfileNode F D)) (a : List ℕ) (k : ℕ) (curr : List (Statement D))
    (fp : List (List (Statement D)))
    (h : Loop.run (step src ident) n { p with files := ⟨f, curr.map some, fp⟩ :: files } =
      some (.ok q)) :
    ∃ opens handled lost m, m ≤ n ∧
      ReadsFile src a (f :: files.map (·.fullFileName)) k curr fp opens handled lost ∧
      Loop.run (step src ident) m (p.after files opens handled) = some (.ok q) := by
  induction n using Nat.strong_induction_on generalizing p f files a k curr fp with
  | _ n ih =>
    cases n with
    | zero => cases h
    | succ n =>
      cases curr with
      | nil =>
        cases fp with
        | nil =>
          rw [map_nil, Loop.run_succ_of_inr (step_pop p f files)] at h
          refine ⟨[], [], 0, n, Nat.le_succ n, .pop, ?_⟩
          rw [Parser.after_nil]
          exact h
        | cons line fp =>
          rw [map_nil, Loop.run_succ_of_inr (step_load p f files line fp)] at h
          obtain ⟨opens, handled, lost, m, hm, hreads, hrun⟩ :=
            ih n (Nat.lt_succ_self n) p f files a k line fp h
          exact ⟨opens, handled, lost, m, by omega, .load hreads, hrun⟩
      | cons s curr =>
        cases s with
        | decl d =>
          cases hused : p.isIdentifierUsed ident d with
          | true =>
            have hmessage : step src ident { p with
                files := ⟨f, some (.decl d) :: curr.map some, fp⟩ :: files } =
                .inl (.error .identifierRedefined) := if_pos hused
            rw [map_cons, Loop.run_succ_of_inl hmessage] at h
            cases h
          | false =>
            rw [map_cons, Loop.run_succ_of_inr (step_decl hused ..)] at h
            obtain ⟨opens, handled, lost, m, hm, hreads, hrun⟩ :=
              ih n (Nat.lt_succ_self n) (p.readDecl d) f files a (k + 1) curr fp h
            refine ⟨opens, .decl d :: handled, lost, m, by omega, .decl hreads, ?_⟩
            rw [Parser.after_decl]
            exact hrun
        | «import» name =>
          rw [map_cons] at h
          cases hround : step src ident { p with
              files := ⟨f, some (.import name) :: curr.map some, fp⟩ :: files } with
          | inl r =>
            rw [Loop.run_succ_of_inl hround] at h
            obtain rfl := Option.some.inj h
            exact absurd (step_eq_ok hround).2 (cons_ne_nil _ _)
          | inr s =>
            rw [Loop.run_succ_of_inr hround] at h
            obtain ⟨hword, g, hg⟩ := isWord_of_step hround
              (fun e he => hq e ((Returns.grows ⟨n, h⟩).1 e he))
            rw [step_import hword hg] at hround
            cases hround
            by_cases hmem : g ∈ f :: files.map (·.fullFileName)
            · rw [if_pos hmem] at h
              obtain ⟨opens, handled, lost, m, hm, hreads, hrun⟩ :=
                ih n (Nat.lt_succ_self n) (p.readImport name) f files a (k + 1 + curr.length) []
                  fp h
              refine ⟨opens, .import name :: handled, _, m, by omega,
                .skip hword hg hmem hreads, ?_⟩
              rw [Parser.after_import]
              exact hrun
            · rw [if_neg hmem] at h
              obtain ⟨opens, handled, lost, m, hm, hreads, hrun⟩ :=
                ih n (Nat.lt_succ_self n) { p.readImport name with opened := p.opened ++ [g] } g
                  (⟨f, curr.map some, fp⟩ :: files) (a ++ [k]) 0 [] (src.lines g) h
              obtain ⟨opens', handled', lost', m', hm', hreads', hrun'⟩ :=
                ih m (by omega) (Parser.after { p.readImport name with
                  opened := p.opened ++ [g] } (⟨f, curr.map some, fp⟩ :: files) opens handled) f
                  files a (k + 1) curr fp hrun
              refine ⟨_, _, _, m', by omega, .push hword hg hmem hreads hreads', ?_⟩
              rw [Parser.after_push]
              exact hrun'

/-! ## Reading once -/

/-- **The imports are read once** exactly when they form a tree but for cycles. -/
theorem readOnce_iff (src : Sources F D) (ident : D → Option I) (root : F)
    (hfin : {f | Reachable src root f}.Finite) :
    (∃ p, ReadOnce src ident root p) ↔ ImportTree src ident root := by
  constructor
  · rintro ⟨p, hp⟩
    obtain ⟨n, hn⟩ := hp.parses
    obtain ⟨opens, handled, lost, m, -, hreads, hrun⟩ :=
      exists_reads hp.lookedUp (start src root) root [] [] 0 [] (src.lines root) hn
    have hend : p = (start src root).after [] opens handled :=
      Except.ok.inj (Loop.Returns.unique ⟨m, hrun⟩ (.of_inl rfl))
    have hopened : p.opened = root :: ends opens := by rw [hend]; rfl
    have hhandled : p.handled = handled := by rw [hend]; rfl
    -- nothing is lost, as the statements read are all there are
    have hlost : lost = 0 := by
      have hlen := hreads.length_handled
      have hall := hp.handled.length_eq
      rw [hhandled, hopened, flatMap_cons, length_append] at hall
      rw [nil_append] at hlen
      simp only [Sources.statements] at hall hlen
      omega
    have htidy := hreads.tidy hlost
    have hnodup : (p.opened.flatMap (src.idents ident)).Nodup := by
      have hdefined := (Returns.grows hp.parses).2 nodup_nil
      have hperm := hp.defined.filterMap ident
      rw [filterMap_flatMap] at hperm
      exact hperm.nodup_iff.mp hdefined
    rw [idents_nodup_iff hp.opened_nodup] at hnodup
    refine ⟨(nodup_iff_unique hreads hlost).mp (hopened ▸ hp.opened_nodup), ?_, ?_, ?_⟩
    · intro a f c ha
      rcases (mem_opens_iff hreads hlost).mp ha with ⟨-, hc⟩ | ha
      · obtain ⟨rfl, rfl⟩ := List.cons.inj hc
        exact Tidy.cons_nil.mp htidy.1
      · exact htidy.2 _ ha f c rfl
    · exact fun f hf => hnodup.1 f ((hp.opened_iff f).mpr hf)
    · exact fun f g hf hg => hnodup.2 f ((hp.opened_iff f).mpr hf) g ((hp.opened_iff g).mpr hg)
  · intro htree
    obtain ⟨opens, handled, hreads⟩ :=
      exists_readsFile hfin htree.tidy hfin.toFinset.card .root (Nat.le_add_right _ _)
    have hunique := (nodup_iff_unique hreads rfl).mpr htree.unique
    have hmem := fun f => mem_opened_iff (f := f) hreads rfl
    have hperm : handled.Perm ((root :: ends opens).flatMap src.statements) := by
      simpa [Sources.statements] using hreads.perm_handled rfl
    have hdefined := hperm.filterMap Statement.decl?
    rw [filterMap_flatMap] at hdefined
    have hident : ((handled.filterMap Statement.decl?).filterMap ident).Nodup := by
      refine (hdefined.filterMap ident).nodup_iff.mpr ?_
      rw [filterMap_flatMap]
      exact (idents_nodup_iff hunique).mpr ⟨fun f hf => htree.idents_nodup f ((hmem f).mp hf),
        fun f hf g hg => htree.idents_disjoint f g ((hmem f).mp hf) ((hmem g).mp hg)⟩
    have hfiles : root :: ([] : List (SrcfileNode F D)).map (·.fullFileName) = [root] := rfl
    have hreach := hreads.reaches hfiles (start src root) hident
    refine ⟨_, ⟨Loop.returns_iff.mpr ⟨_, hreach, rfl⟩, hunique, hmem, hperm, ?_, hdefined⟩⟩
    intro e he
    obtain ⟨s, -, hs⟩ := mem_filterMap.mp he
    cases s with
    | decl d => cases hs
    | «import» name =>
      cases hs
      rfl

/-- Four files: the first imports the second and the third, and both of them the fourth, which
defines a name. -/
def diamond : Sources (Fin 4) ℕ where
  lines
    | 0 => [[.import ⟨['b'], by decide⟩], [.import ⟨['c'], by decide⟩]]
    | 1 | 2 => [[.import ⟨['d'], by decide⟩]]
    | 3 => [[.decl 0]]
  findFile name :=
    if name = ['b'] then some 1 else if name = ['c'] then some 2
    else if name = ['d'] then some 3 else none

theorem readOnce_iff_diamond : (∃ p, ReadOnce diamond some 0 p) ↔ ImportTree diamond some 0 :=
  readOnce_iff diamond some 0 (Set.toFinite _)

/-- The fourth file is read again for the third, and its definition is reported. -/
theorem not_readOnce : ¬ ∀ (F D I : Type) [DecidableEq F] [DecidableEq I] (src : Sources F D)
    (ident : D → Option I) (root : F), {f | Reachable src root f}.Finite →
    ∃ p, ReadOnce src ident root p := by
  intro h
  obtain ⟨p, hp⟩ := h _ _ _ diamond some 0 (Set.toFinite _)
  have hmessage : Loop.Returns (step diamond some) (start diamond 0)
      (.error .identifierRedefined) := ⟨20, rfl⟩
  cases hp.parses.unique hmessage

end V2I.Rpcc
