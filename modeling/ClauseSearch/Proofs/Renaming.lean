import ClauseSearch.Proofs.Contiguous
import ClauseSearch.Proofs.FrequencyOrder
import ClauseSearch.Proofs.Prepared

/-! A formula on ranks is the formula as given with its variables renamed. The clauses stay where they are and
as long as they are, each literal keeps its polarity and can be read back, and the frequencies go with their
variables. So values that go with their variables satisfy the same clauses: the first one that they do not
satisfy is the same on both sides. -/

namespace ClauseSearch

variable {f g : Formula} {r : Ranking} {c : Clause} {u w : Valuation}

namespace Formula

/-- The second formula is the first one with every variable on its rank. -/
structure OnRanks (r : Ranking) (f g : Formula) : Prop where
  offsets : g.contiguous.offsets = f.contiguous.offsets
  clauseCount : g.clauseCount = f.clauseCount
  variableCount : g.variableCount = f.variableCount
  /-- Each literal stays in its place, with its polarity and on the rank of its variable. -/
  literal : ∀ (i j : Nat) (d : Clause) (l : Literal), f.clause? i = some d → d[j]? = some l →
    ∃ (d' : Clause) (m : Literal), g.clause? i = some d' ∧ d'[j]? = some m ∧
      m.polarity = l.polarity ∧ r.rank l.var = .ok m.var ∧ r.ofRanked m = .ok l
  frequency : ∀ x, 0 < x → x ≤ f.variableCount →
    ∃ k, r.rank x = .ok k ∧ g.frequencies.get k = f.frequencies.get x
  counts : ∀ k, g.frequencies.get k =
    ⟨g.literals.count ⟨k, true⟩, g.literals.count ⟨k, false⟩⟩
  unsatisfied : ∀ u w : Valuation,
    (∀ x k, 0 < x → x ≤ f.variableCount → r.rank x = .ok k → w.value? k = u.value? x) →
      g.unsatisfiedClause? w = f.unsatisfiedClause? u

end Formula

/-! ### Clauses -/

theorem Clause.satisfiedOn_renamed (h : ∀ l ∈ c, w.value? (r.rankOf l.var) = u.value? l.var) :
    Clause.satisfiedOn w (c.map r.renamed) = Clause.satisfiedOn u c := by
  rw [Bool.eq_iff_iff, satisfiedOn_iff, satisfiedOn_iff]
  constructor
  · rintro ⟨_, hm, hvalue⟩
    obtain ⟨l, hl, rfl⟩ := List.mem_map.1 hm
    exact ⟨l, hl, (h l hl).symm.trans hvalue⟩
  · rintro ⟨l, hl, hvalue⟩
    exact ⟨r.renamed l, List.mem_map_of_mem hl, (h l hl).trans hvalue⟩

namespace Formula

theorem unsatisfiedClause?_eq (f : Formula) (v : Valuation) :
    f.unsatisfiedClause? v = (f.clauses.map fun c => !Clause.satisfiedOn v c).findIdx? id := by
  rw [Array.findIdx?_map]
  rfl

theorem unsatisfiedClause?_renamed (hclauses : g.clauses = f.clauses.map (List.map r.renamed))
    (h : ∀ l ∈ f.literals, w.value? (r.rankOf l.var) = u.value? l.var) :
    g.unsatisfiedClause? w = f.unsatisfiedClause? u := by
  have hverdicts : (g.clauses.map fun c => !Clause.satisfiedOn w c) =
      f.clauses.map fun c => !Clause.satisfiedOn u c := by
    rw [hclauses, Array.map_map]
    apply Array.map_congr_left
    intro c hc
    show (!Clause.satisfiedOn w (c.map r.renamed)) = !Clause.satisfiedOn u c
    rw [Clause.satisfiedOn_renamed fun l hl => h l (mem_literals.2 ⟨c, hc, hl⟩)]
  rw [unsatisfiedClause?_eq, unsatisfiedClause?_eq, hverdicts]

theorem offsets_renamed (hclauses : g.clauses = f.clauses.map (List.map r.renamed)) :
    g.contiguous.offsets = f.contiguous.offsets := by
  have hlengths : g.clauses.toList.map List.length = f.clauses.toList.map List.length := by
    rw [hclauses, Array.toList_map, List.map_map]
    apply List.map_congr_left
    intro c _
    exact List.length_map _
  show g.offsets.toArray = f.offsets.toArray
  rw [offsets, offsets, hlengths]

/-! ### The formula -/

/-- With a ranking whose tables are inverse, a formula is put on ranks without a fault. -/
theorem exists_onRanks (h : r.Inverse f.variableCount) (hf : f.Ranged)
    (hsize : f.frequencies.size = f.variableCount + 1) (hcounts : f.frequencies.Counts f.literals) :
    ∃ g, f.toRanks r = .ok g ∧ OnRanks r f g := by
  obtain ⟨g, hg, hcount, -, hclauses, -, hgcounts⟩ :=
    toRanks_eq_ok h (fun _ hl => hf.literal hl) hsize hcounts
  have hliterals := literals_map hclauses
  refine ⟨g, hg, offsets_renamed hclauses, ?_, hcount, ?_, ?_, hgcounts, ?_⟩
  · rw [clauseCount, hclauses, Array.size_map]
    rfl
  · intro i j c l hc hl
    have hwithin := hf c (Array.mem_of_getElem? hc) l (List.mem_of_getElem? hl)
    have hclause : g.clause? i = some (c.map r.renamed) := by
      rw [clause?, hclauses, Array.getElem?_map]
      exact congrArg _ hc
    have hrank := h.rankOf_mem l.var hwithin.1 hwithin.2
    refine ⟨_, r.renamed l, hclause, ?_, rfl, h.rank_eq_ok hwithin.2, ?_⟩
    · rw [List.getElem?_map, hl]
      rfl
    · rw [Ranking.ofRanked_eq_ok h hrank.2, Ranking.renamed, h.varAt_rankOf l.var hwithin.1 hwithin.2]
  · intro x hx hxn
    refine ⟨_, h.rank_eq_ok hxn, ?_⟩
    rw [hgcounts, hcounts, hliterals, count_map_renamed h (fun _ hl => hf.literal hl) hx hxn,
      count_map_renamed h (fun _ hl => hf.literal hl) hx hxn]
  · intro u w huw
    apply unsatisfiedClause?_renamed hclauses
    intro l hl
    have hwithin := hf.literal hl
    exact huw l.var _ hwithin.1 hwithin.2 (h.rank_eq_ok hwithin.2)

theorem exists_prepared (h : f.Stored)
    (hg : f.settle.toRanks (.byFrequency f.settle.frequencies) = .ok g) :
    ∃ occurrences, Prepared.ofFormula f true =
      .ok (.ok ⟨g, .byFrequency f.settle.frequencies, occurrences⟩) := by
  have hprepared : Prepared.ofFormula f true = .ok ((Occurrences.ofFormula g).map fun occurrences =>
      ⟨g, .byFrequency f.settle.frequencies, occurrences⟩) := by
    show (f.settle.toRanks (.byFrequency f.settle.frequencies) >>= fun g => _) = _
    rw [hg]
    rfl
  obtain ⟨p, hp, -⟩ := Prepared.ofFormula_eq_ok h true
  cases hoccurrences : Occurrences.ofFormula g with
  | ok occurrences =>
    rw [hoccurrences] at hprepared
    exact ⟨occurrences, hprepared⟩
  | error reason =>
    rw [hoccurrences, hp] at hprepared
    exact absurd hprepared (by simp [Except.map])

/-- A formula that additions lead to is put in the order of its frequencies, in its arrays as on clauses, and
this is what a search is prepared with. -/
theorem onRanks_of_built (h : f.Built) :
    ∃ g, f.settle.toRanks (.byFrequency f.settle.frequencies) = .ok g ∧
      f.settle.contiguous.toRanks (.byFrequency f.settle.frequencies) = .ok g.contiguous ∧
      OnRanks (.byFrequency f.settle.frequencies) f.settle g ∧
      ∃ occurrences, Prepared.ofFormula f true =
        .ok (.ok ⟨g, .byFrequency f.settle.frequencies, occurrences⟩) := by
  have hstored := h.stored
  obtain ⟨g, hg, honRanks⟩ := exists_onRanks (f := f.settle)
    (Ranking.inverse_byFrequency hstored.size_settle) hstored.ranged hstored.size_settle
    hstored.counts_settle
  refine ⟨g, hg, ?_, honRanks, exists_prepared hstored hg⟩
  rw [Contiguous.toRanks_contiguous, hg]
  rfl

/-- Variable 2 occurs most often, and variable 4 is declared but does not occur. -/
theorem onRanks_declared : ∃ f g : Formula,
    f.clauses = #[[⟨1, true⟩, ⟨2, false⟩, ⟨3, true⟩], [⟨2, true⟩], [⟨3, false⟩, ⟨1, false⟩, ⟨2, false⟩]] ∧
      f.Built ∧ f.settle.toRanks (.byFrequency f.settle.frequencies) = .ok g ∧
      OnRanks (.byFrequency f.settle.frequencies) f.settle g ∧
      g.contiguous.offsets = #[0, 3, 4, 7] := by
  have hdeclared : Built (.ofDeclaration ⟨4, 3⟩) := .declared (by decide)
  have hfirst : Built _ := @Built.add _ _ [1, -2, 3] _ hdeclared rfl
  have hsecond : Built _ := @Built.add _ _ [2] _ hfirst rfl
  have hbuilt : Built _ := @Built.add _ _ [-3, -1, -2] _ hsecond rfl
  obtain ⟨g, hg, -, honRanks, -⟩ := onRanks_of_built hbuilt
  exact ⟨_, g, rfl, hbuilt, hg, honRanks, honRanks.offsets.trans rfl⟩

end Formula

end ClauseSearch
