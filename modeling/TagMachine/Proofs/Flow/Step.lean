import TagMachine.Proofs.Flow.Operations

set_option autoImplicit false

/-! # Steps of twins

Twins that take a step to the same place are twins after it (`Twins.advance`). Plain operations are
dealt with in `Flow/Operations`; here come the two ends of an iteration. An iteration over a list
that carries the tag may run over different elements, but then all that it puts in registers carries
the tag.
-/

namespace TagMachine.Machine

variable {b : Nat} {β : Pairing} {m m' : Machine} {s : Setting} {i : Instruction}

namespace Twins

variable {f g : Frame} {pc next : Nat}

/-- An iteration ends with results that are related where the list lacks the tag. -/
theorem close (h : Twins b β m m') (hfg : f.Alike b β g) {rs rs' : Array Value}
    (hrs : TagSet.Lacks b f.sourceTags → List.Forall₂ β.Rel rs.toList rs'.toList) :
    Agree b (m.close f rs) (m'.close g rs') := by
  obtain ⟨xs, ys, rfl⟩ := hfg.shape
  obtain ⟨γ, -, htwins, hrel⟩ := h.newList rs rs' hrs
  have hlist : Agree b ({ m with store := (m.store.newList rs).2 }.put f.result
      ⟨.list (m.store.newList rs).1, f.sourceTags⟩)
      ({ m' with store := (m'.store.newList rs').2 }.put f.result
        ⟨.list (m'.store.newList rs').1, f.sourceTags⟩) :=
    ⟨γ, htwins.put _ ⟨rfl, hrel⟩⟩
  unfold Machine.close finish
  dsimp only
  cases f.mode with
  | fold => exact ⟨β, h.put _ (h.registers _)⟩
  | _ => exact hlist

theorem seed (h : Twins b β m m') (hfg : f.Alike b β g) {v w : Value}
    (hvw : TagSet.Lacks b f.sourceTags → β.Rel v w) : Twins b β (m.seed f v) (m'.seed g w) := by
  obtain ⟨xs, ys, rfl⟩ := hfg.shape
  exact h.put _ ⟨rfl, hvw⟩

/-- Both machines plan the same iteration. -/
theorem alike_of_plan (h : Twins b β m m') (hf : m.plan s pc i = .ok f)
    (hg : m'.plan s pc i = .ok g) : f.Alike b β g := by
  obtain ⟨hbody, hcollect, hcursor, hresults, hmode, source, ref, close, hsource, href, hclose,
    hitems, htags, helement, hresult, hfirst, hsecond⟩ := planned_of_plan hf
  obtain ⟨hbody', hcollect', hcursor', hresults', hmode', source', ref', close', hsource', href',
    hclose', hitems', htags', helement', hresult', hfirst', hsecond'⟩ := planned_of_plan hg
  have hregister := h.registers i.op1.toNat
  rw [← register_eq_ok hsource, ← register_eq_ok hsource'] at hregister
  obtain rfl : close = close' := by
    rw [hcollect, ← hcollect'] at hclose
    exact Option.some.inj (hclose.symm.trans hclose')
  rw [slot_eq_ok] at helement hresult hfirst hsecond helement' hresult' hfirst' hsecond'
  refine ⟨⟨g.items, g.results, ?_⟩, by omega, fun hlow => ?_, fun _ => ?_⟩
  · have htags_eq : g.sourceTags = f.sourceTags := by rw [htags, htags', hregister.tags]
    obtain ⟨⟨⟩, _⟩ := f
    obtain ⟨⟨⟩, _⟩ := g
    simp_all
  · have hrel := hregister.value (htags ▸ hlow)
    rw [href, href'] at hrel
    rw [hitems, hitems']
    exact h.stores.items hrel.lists_of_list
  · rw [hresults, hresults']
    exact .nil

/-- What a run of the body adds to the results is related, unless it loses the tag. -/
theorem gather_rel (h : Twins b β m m') (hfg : f.Alike b β g) (hlow : TagSet.Lacks b f.sourceTags)
    (hkeeps : ¬m.LosesResult b f) :
    List.Forall₂ β.Rel (m.gather f).toList (m'.gather g).toList := by
  have hresults := hfg.results hlow
  obtain ⟨xs, ys, rfl⟩ := hfg.shape
  have hpush : ∀ k, m.Low b k → List.Forall₂ β.Rel (f.results.push (m.peek k).value).toList
      (ys.push (m'.peek k).value).toList := fun k hk => by
    rw [Array.toList_push, Array.toList_push]
    exact List.rel_append hresults (.cons ((h.registers k).value hk) .nil)
  -- In the two modes with a condition, the condition lacks the tag and comes out the same.
  have hfilter : m.Low b f.first →
      ((m.peek f.first).value = .boolean true → m.Low b f.second) →
      List.Forall₂ β.Rel
        (if (m.peek f.first).value = .boolean true then f.results.push (m.peek f.second).value
          else f.results).toList
        (if (m'.peek f.first).value = .boolean true then ys.push (m'.peek f.second).value
          else ys).toList := by
    intro hfirst hsecond
    have hrel := (h.registers f.first).value hfirst
    by_cases htrue : (m.peek f.first).value = .boolean true
    · have htrue' : (m'.peek f.first).value = .boolean true := by
        rw [htrue] at hrel
        exact (hrel.eq_of_scalar rfl).symm
      rw [if_pos htrue, if_pos htrue']
      exact hpush _ (hsecond htrue)
    · have htrue' : (m'.peek f.first).value ≠ .boolean true := by
        intro heq
        rw [heq] at hrel
        exact htrue (hrel.eq_of_scalar (by rw [hrel.isContainer_eq]; rfl))
      rw [if_neg htrue, if_neg htrue']
      exact hresults
  have hfirst (hmode : f.mode ≠ .fold) : m.Low b f.first :=
    by_contra fun hhigh => hkeeps ⟨hlow, hmode, .inl hhigh⟩
  have hsecond (hmode : f.mode ≠ .fold) (hmode' : f.mode ≠ .map)
      (htrue : (m.peek f.first).value = .boolean true) : m.Low b f.second :=
    by_contra fun hhigh => hkeeps ⟨hlow, hmode, .inr ⟨hmode', htrue, hhigh⟩⟩
  unfold gather
  dsimp only
  cases hmode : f.mode with
  | map => exact hpush _ (hfirst (by simp [hmode]))
  | fold => exact hresults
  | filter | mapFilter =>
    exact hfilter (hfirst (by simp [hmode])) (hsecond (by simp [hmode]) (by simp [hmode]))

end Twins

/-! ## Steps -/

variable {n n' : Machine} {pc next : Nat}

theorem Twins.frames_cons (h : Twins b β m m') {f g : Frame} {fs gs : List Frame}
    (hf : m.frames = f :: fs) (hg : m'.frames = g :: gs) :
    f.Alike b β g ∧ List.Forall₂ (Frame.Alike b β) fs gs := by
  have hframes := h.frames
  rw [hf, hg] at hframes
  exact List.forall₂_cons.1 hframes

theorem keeps_of_collect (hm : ¬m.Loses b .collect i) {f : Frame} {fs : List Frame}
    (hf : m.frames = f :: fs) : ¬m.LosesResult b f := by
  intro hloses
  exact hm ⟨f, by rw [hf]; rfl, hloses⟩

/-- Twins that both open a loop, or both pass over it, are twins afterwards. -/
theorem Twins.advance_iterate (h : Twins b β m m') (hop : Opcode.ofByte? i.opcode = some .iterate)
    (hn : Advance s pc i m next n) (hn' : Advance s pc i m' next n') : Agree b n n' := by
  obtain ⟨f, hplan, hcase⟩ := hn.iterate_cases hop
  obtain ⟨g, hplan', hcase'⟩ := hn'.iterate_cases hop
  have hf := planned_of_plan hplan
  have hg := planned_of_plan hplan'
  have halike := h.alike_of_plan hplan hplan'
  rcases hcase with ⟨-, hnext, rfl⟩ | ⟨item, hitem, hnext, rfl⟩
  · rcases hcase' with ⟨-, -, rfl⟩ | ⟨item', -, hnext', -⟩
    · exact h.close halike fun _ => .nil
    · have := hf.collectAt
      have := hg.bodyStart
      omega
  · rcases hcase' with ⟨-, hnext', -⟩ | ⟨item', hitem', -, rfl⟩
    · have := hf.bodyStart
      have := hg.collectAt
      omega
    · refine ⟨β, (h.seed halike fun hlow => ?_).withFrames (.cons halike h.frames)⟩
      exact Pairing.rel_of_getElem? (halike.items hlow) hitem hitem'

/-- Twins that both go on with a loop, or both leave it, are twins afterwards. -/
theorem Twins.advance_collect (h : Twins b β m m') (hop : Opcode.ofByte? i.opcode = some .collect)
    (hm : ¬m.Loses b .collect i) (hn : Advance s pc i m next n)
    (hn' : Advance s pc i m' next n') : Agree b n n' := by
  obtain ⟨f, fs, hframes, hpc, hcase⟩ := hn.collect_cases hop
  obtain ⟨g, gs, hframes', hpc', hcase'⟩ := hn'.collect_cases hop
  obtain ⟨halike, hrest⟩ := h.frames_cons hframes hframes'
  have hbody := halike.body
  have hgather (hlow : TagSet.Lacks b f.sourceTags) :=
    h.gather_rel halike hlow (keeps_of_collect hm hframes)
  obtain ⟨xs, ys, rfl⟩ := halike.shape
  rcases hcase with ⟨item, hitem, hnext, rfl⟩ | ⟨-, hnext, rfl⟩
  · rcases hcase' with ⟨item', hitem', -, rfl⟩ | ⟨-, hnext', -⟩
    · refine ⟨β, (h.seed halike fun hlow => ?_).withFrames (.cons ?_ hrest)⟩
      · exact Pairing.rel_of_getElem? (halike.items hlow) hitem hitem'
      · exact ⟨⟨xs, _, rfl⟩, halike.body, halike.items, hgather⟩
    · omega
  · rcases hcase' with ⟨item', -, hnext', -⟩ | ⟨-, -, rfl⟩
    · dsimp only at hnext'
      omega
    · exact (h.withFrames hrest).close halike hgather

/-- A step that twins take to the same place leaves twins. -/
theorem Twins.advance (hs : s.functions.Uniform) (h : Twins b β m m') (hi : i.Direct)
    (hm : i.Keeps b m) (hm' : i.Keeps b m') (hn : Advance s pc i m next n)
    (hn' : Advance s pc i m' next n') : Agree b n n' := by
  obtain ⟨op, hop⟩ := hn.exists_opcode
  have hdirect := hi.2
  rw [hop] at hdirect
  simp only [Option.all_some, Bool.and_eq_true, bne_iff_ne, Bool.not_eq_true'] at hdirect
  obtain ⟨⟨hjump, htag⟩, hpick⟩ := hdirect
  by_cases hiterate : op = .iterate
  · subst hiterate
    exact h.advance_iterate hop hn hn'
  by_cases hcollect : op = .collect
  · subst hcollect
    exact h.advance_collect hop (hm _ hop) hn hn'
  have hplain : op.isPlain = true := by simp [Opcode.isPlain, hjump, hiterate, hcollect]
  exact h.apply hs hi.1 hplain htag hpick (hm _ hop) (hm' _ hop) _ _ (hn.of_isPlain hop hplain).2
    (hn'.of_isPlain hop hplain).2

end TagMachine.Machine
