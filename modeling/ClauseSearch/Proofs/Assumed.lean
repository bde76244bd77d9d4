import ClauseSearch.Proofs.Counting
import ClauseSearch.Proofs.Tasks

/-! What a search does under assumptions. On a fresh search or a fork, literals that contradict neither each
other nor the values held are assumed together. To search from there is to decide whether a model extends
the values held, or to count and divide all the models that do; and to search once more comes to the same,
since what the first search has left is what its own first propagation derived. -/

namespace ClauseSearch.Search

variable {p : Prepared} {o : Options} {watch : Watch} {s t u : Search} {v : Valuation}
  {leaves : List Valuation} {depth cursor : Nat} {ending : Ending} {f : Formula} {byFrequency : Bool}
  {ls : List Literal}

/-! ### Models among the extensions -/

def isModelOn (p : Prepared) (v : Valuation) (a : Assignment) : Bool :=
  v.admits a && p.formula.holds a

theorem isModelOn_iff {a : Assignment} :
    isModelOn p v a = true ↔ v.admits a = true ∧ p.formula.holds a = true := by
  rw [isModelOn, Bool.and_eq_true]

/-- Where nothing is left to examine, the leaves admit the models among the extensions. -/
theorem Explored.any_admits (h : Explored p o watch cursor v (.ok .exhausted) leaves) (hp : p.Proper)
    (a : Assignment) : leaves.any (·.admits a) = isModelOn p v a := by
  rw [Bool.eq_iff_iff, List.any_eq_true, isModelOn_iff]
  constructor
  · rintro ⟨w, hw, ha⟩
    exact ⟨Valuation.admits_of_extends (h.extends_start w hw) ha, (h.solved w hw).holds hp ha⟩
  · rintro ⟨ha, hholds⟩
    exact h.complete rfl a ha hholds

theorem Explored.exists_model (h : Explored p o watch cursor v (.ok .satisfiable) leaves) (hp : p.Proper) :
    ∃ a, isModelOn p v a = true ∧ leaves.head?.map p.modelOf =
      some ((List.range' 1 p.variableCount).map fun x => Prepared.signed x (p.onVariables a x)) := by
  obtain ⟨w, rest, rfl⟩ := List.exists_cons_of_ne_nil (h.satisfiable rfl).2
  have hfilled := Prepared.admits_filled (p := p) (h.extends_start w List.mem_cons_self)
  have hholds := (h.solved w List.mem_cons_self).holds hp (Prepared.admits_filled (p := p) (.refl w))
  exact ⟨p.filled w, isModelOn_iff.2 ⟨hfilled, hholds⟩, rfl⟩

/-- A search for one model ends at one exactly if one of the extensions is a model. -/
theorem Explored.satisfiable_iff {found : Found} (h : Explored p o watch cursor v (.ok found) leaves)
    (hp : p.Proper) (he : o.enumerate = false) :
    found = .satisfiable ↔ ∃ a, isModelOn p v a = true := by
  constructor
  · rintro rfl
    exact (h.exists_model hp).imp fun a ha => ha.1
  · rintro ⟨a, ha⟩
    cases found with
    | satisfiable => rfl
    | exhausted =>
      obtain rfl := h.unsolved he (by simp)
      simp [← h.any_admits hp a] at ha

theorem Explored.exhausted {found : Found} (h : Explored p o watch cursor v (.ok found) leaves)
    (he : o.enumerate = true) : found = .exhausted := by
  cases found with
  | satisfiable => exact absurd (h.satisfiable rfl).1 (by simp [he])
  | exhausted => rfl

/-! ### Searching twice -/

/-- A search with no decision that no check stops finds the leaves that its rule leads to, and finds them
again when it is repeated: what it leaves holds what units derive, and the rule leads from there to the
same leaves. -/
theorem explore_twice (o : Options) (depth : Nat) (hp : p.Proper) (hs : s.Sound p)
    (hquiet : ∀ k, watch k = none) : ∃ found t u leaves,
      explore p o watch depth none s = .ok (.ok found, t) ∧
      explore p o watch depth none t = .ok (.ok found, u) ∧
      Explored p o watch 0 s.valuation (.ok found) leaves ∧
      t.solutions = leaves.foldl (record p o) s.solutions ∧
      u.solutions = leaves.foldl (record p o) t.solutions := by
  have hcursor : ∀ {v : Valuation} (r : Nat), 0 < r → r ≤ 0 → v.value? r ≠ none := fun r hr hle => by omega
  obtain ⟨ending, t, leaves, hfirst, hexplored, hfound⟩ :=
    explore_spec o watch depth none hp hs (by simp)
  have hleft := LeftBy.of_explore hp hs hfirst
  obtain ⟨ending', u, leaves', hsecond, hexplored', hfound'⟩ :=
    explore_spec o watch depth none hp hleft.sound (by simp)
  obtain ⟨w, conflict, -, -, -, hderived, ht⟩ := hleft
  have hvaluation : t.valuation = w.valuation := by
    rw [ht]
    rfl
  have hdescends := hexplored'.descends hquiet hcursor
  rw [hvaluation] at hdescends
  obtain rfl : leaves' = leaves :=
    (hexplored.descends hquiet hcursor).unique (hdescends.before hderived.steps)
  rw [hexplored'.ending_eq hquiet hcursor] at hsecond
  rw [hexplored.ending_eq hquiet hcursor] at hfirst hexplored
  exact ⟨_, t, u, leaves', hfirst, hsecond, hexplored, hfound, hfound'⟩

/-! ### The contract -/

/-- What a search has added to what was found before. -/
structure Adds (before after : Solutions) (count : Nat) (cubes : List (List Int)) : Prop where
  count : after.count = min (before.count + count) Solutions.countLimit
  cubes : after.cubes.toList = before.cubes.toList ++ cubes

theorem adds_foldl_record {before : Solutions} (h : before.count ≤ Solutions.countLimit) :
    Adds before (leaves.foldl (record p o) before)
      (leaves.map fun w => 2 ^ (w.variableCount - w.valuedCount)).sum
      (if (o.enumerate && o.keepModels) = true then leaves.map p.cubeOf else []) where
  count := count_foldl_record h
  cubes := by
    split
    · rename_i hkeep
      obtain ⟨he, hk⟩ := Bool.and_eq_true_iff.1 hkeep
      exact cubes_foldl_record he hk
    · rename_i hkeep
      rw [cubes_foldl_record_of_not (Bool.eq_false_iff.2 hkeep), List.append_nil]

/-- Literals on ranks that contradict neither each other nor the values held can be assumed on a search that
nothing but assumptions was made on. Unless it enumerates, the search then finds a model that has the
values held if there is one, and records it; and if it enumerates, it counts these models up to the
limit, and the cubes it keeps divide them. To search again comes to the same and adds the same. -/
theorem explore_of_assumed (hf : f.Built) (hp : Prepared.ofFormula f byFrequency = .ok (.ok p))
    (h : Operated p false s)
    (hls : ∀ l ∈ ls, 0 < l.var ∧ l.var ≤ p.variableCount ∧
      s.valuation.value? l.var ≠ some (!l.polarity))
    (hagree : ∀ l ∈ ls, ∀ k ∈ ls, l.var = k.var → l.polarity = k.polarity)
    (o : Options) (hquiet : ∀ k, watch k = none) (depth : Nat) :
    ∃ t, Partition.assumeAll ls s = .ok (.ok t) ∧
      (∀ a, t.valuation.admits a = true ↔
        s.valuation.admits a = true ∧ ∀ l ∈ ls, a l.var = l.polarity) ∧
      ∃ found u w count cubes,
        explore p o watch depth none t = .ok (.ok found, u) ∧ Adds t.solutions u.solutions count cubes ∧
        explore p o watch depth none u = .ok (.ok found, w) ∧ Adds u.solutions w.solutions count cubes ∧
        w.solutions.model = u.solutions.model ∧
        (o.enumerate = false →
          ((∃ a, isModelOn p t.valuation a = true) → found = .satisfiable ∧
            ∃ a, isModelOn p t.valuation a = true ∧ u.solutions.model =
              some ((List.range' 1 p.variableCount).map fun x =>
                Prepared.signed x (p.onVariables a x))) ∧
          ((¬ ∃ a, isModelOn p t.valuation a = true) → found = .exhausted)) ∧
        (o.enumerate = true → found = .exhausted ∧
          count = countAssignments p.variableCount (isModelOn p t.valuation) ∧
          (o.keepModels = true → ∀ a : Assignment,
            (isModelOn p t.valuation (p.onRanks a) = true → cubes.countP a.agrees = 1) ∧
            ∀ cube ∈ cubes, a.agrees cube = true →
              isModelOn p t.valuation (p.onRanks a) = true)) := by
  obtain ⟨hproper, -⟩ := Prepared.proper_of_ofFormula hf.stored hp
  obtain ⟨hs, huntouched⟩ := h.sound hproper
  obtain ⟨v, hall, hsize, hext, hadmits⟩ := Partition.assumeAll_spec hs.toCoherent hls hagree
  have hv : v.slots.size = p.variableCount + 1 := hsize.trans hs.slots
  have hempty : (s.holding v).solutions = {} := (huntouched rfl).solutions
  obtain ⟨found, u, w, leaves, hfirst, hsecond, hexplored, hfound, hfound'⟩ :=
    explore_twice o depth hproper (hs.holding hsize hext) hquiet
  have hzero : (s.holding v).solutions.count ≤ Solutions.countLimit := by simp [hempty]
  refine ⟨s.holding v, hall, hadmits, found, u, w,
    (leaves.map fun w => 2 ^ (w.variableCount - w.valuedCount)).sum,
    if (o.enumerate && o.keepModels) = true then leaves.map p.cubeOf else [], hfirst, ?_, hsecond, ?_, ?_,
    fun he => ⟨fun hsome => ?_, fun hnone => ?_⟩, fun he => ?_⟩
  · rw [hfound]
    exact adds_foldl_record hzero
  · rw [hfound', hfound]
    exact adds_foldl_record (count_foldl_record_le hzero)
  · rw [hfound', hfound, model_foldl_record, model_foldl_record, hempty]
    cases leaves.head? <;> rfl
  · obtain rfl := (hexplored.satisfiable_iff hproper he).2 hsome
    rw [hfound, model_foldl_record, hempty]
    exact ⟨rfl, hexplored.exists_model hproper⟩
  · cases found with
    | satisfiable => exact absurd ((hexplored.satisfiable_iff hproper he).1 rfl) hnone
    | exhausted => rfl
  · obtain rfl := hexplored.exhausted he
    have hsizes : ∀ w ∈ leaves, w.slots.size = p.variableCount + 1 := fun w hw =>
      (hexplored.size w hw).trans hv
    refine ⟨rfl, ?_, fun hk a => ?_⟩
    · rw [← countAssignments_any hsizes hexplored.apart,
        countAssignments_congr (hexplored.any_admits hproper)]
    · rw [if_pos (by rw [he, hk]; rfl)]
      rw [← hexplored.any_admits hproper]
      exact Prepared.countP_agrees_cubeOf hproper hsizes hexplored.apart a

theorem explore_of_assumed_one_literal : ∃ f p t u, f.clauses = #[[⟨1, true⟩, ⟨2, true⟩]] ∧
    Prepared.ofFormula f true = .ok (.ok p) ∧
      Partition.assumeAll [⟨1, true⟩, ⟨1, true⟩] (fresh p) = .ok (.ok t) ∧
      explore p {} (fun _ => none) 0 none t = .ok (.ok .satisfiable, u) := by
  have hf : Formula.Built _ := @Formula.Built.add _ _ [1, 2] _ .empty rfl
  obtain ⟨p, hp, hproper, hrenames⟩ := Prepared.ofFormula_eq_ok hf.stored true
  have hcount : p.variableCount = 2 := hrenames.variableCount
  have hls : ∀ l ∈ ([⟨1, true⟩, ⟨1, true⟩] : List Literal), 0 < l.var ∧ l.var ≤ p.variableCount ∧
      (fresh p).valuation.value? l.var ≠ some (!l.polarity) := by
    simp [hcount, fresh, Valuation.value?_fresh]
  obtain ⟨t, hassumed, hadmits, found, u, w, count, cubes, hexplore, -, -, -, -, hfinds, -⟩ :=
    explore_of_assumed hf hp .fresh hls (by simp) {} (fun _ => rfl) 0
  have hmodel : isModelOn p t.valuation (p.onRanks fun _ => true) = true := by
    refine isModelOn_iff.2 ⟨(hadmits _).2 ⟨Valuation.admits_fresh _ _, by simp [Prepared.onRanks]⟩, ?_⟩
    rw [Prepared.holds_onRanks hproper hrenames hf.stored.ranged]
    decide +kernel
  obtain ⟨rfl, -⟩ := (hfinds rfl).1 ⟨_, hmodel⟩
  exact ⟨_, p, t, u, rfl, hp, hassumed, hexplore⟩

end ClauseSearch.Search
