/-
  A sequence as the precondition of an action.

  After the plan for the preconditions of an action `solve/6` looks for them once more in the world
  that the plan leads to. In this re-check the two spellings of a sequence differ: a list is never
  found there. Until the re-check finds the sequence in one of the spellings, the search takes the
  same course with both (`solveUntil_respelled`), with a little more fuel for one of them. So both
  have the same first plan where the re-check does not find the sequence before
  (`NotPassed.same`).
-/
import SmartWarehouse.Kbase.Spellings
import SmartWarehouse.Lib.FirstAnswer

namespace SmartWarehouse.Kbase

open SmartWarehouse.Lib

/-- The last clause of `solve/6` for a search that ends with `e` where `stop` holds of an opening
    and the world after the plan for its preconditions. -/
def Facts.solveUntil (actions : List Action) (stop : Opened → List Term → Prop)
    [∀ o w, Decidable (stop o w)] (e : Ending) (solve6 : Facts.Solve) : Facts.Solve :=
  fun goals w0 forbidden dom =>
    (Search.ofList (openings actions goals w0 forbidden dom)).bind fun o =>
    (solve6 o.precList w0 (o.operator :: forbidden) o.domain).bind fun before =>
    if stop o before.world then ⟨[], e⟩ else recheck solve6 goals forbidden o before

/-- The action with these entries and a single precondition between them. -/
def withPre (es : List Entry) (t : Term) (es' : List Entry) : Action := es ++ .pre [t] :: es'

/-- The opening is one for the action with the sequence as its precondition, in either spelling. -/
def ForSequence (es es' : List Entry) (goals : List Term) (o : Opened) : Prop :=
  (o.action = withPre es (seqTerm goals) es' ∨ o.action = withPre es (seqList goals) es') ∧
    (o.precList = [seqTerm goals] ∨ o.precList = [seqList goals])

/-- The re-check for the action finds its sequence in the world, in either spelling. -/
def Passes (es es' : List Entry) (goals : List Term) (o : Opened) (w1 : List Term) : Prop :=
  ForSequence es es' goals o ∧
    (preconditionsHold [seqTerm goals] w1 ≠ [] ∨ preconditionsHold [seqList goals] w1 ≠ [])

instance (es es' : List Entry) (goals : List Term) (o : Opened) (w1 : List Term) :
    Decidable (Passes es es' goals o w1) :=
  inferInstanceAs (Decidable (((_ ∨ _) ∧ (_ ∨ _)) ∧ _))

/-- The search for `asked` does not pass the re-check of the sequence before its first plan: how it
    would end there makes no difference. -/
def NotPassed (actions : List Action) (es es' : List Entry) (goals asked w0 : List Term) : Prop :=
  ∀ e, e ≠ .exhausted → ∀ fuel,
    (Facts.solveWithDomainWith (Facts.solveUntil actions (Passes es es' goals) e) fuel asked w0
      none).outcome = (Facts.solveWithDomain actions fuel asked w0 none).outcome

/-! ## One level of the search -/

variable {actions : List Action} {e d : Ending} {goals w : List Term}
  {forbidden : List (List Term)} {dom : Option Term}

section

variable {withDomain withDomain' : List Term → List Term → Option Term → Search Solution}

theorem sequential_below (hd : d ≠ .exhausted)
    (h : ∀ goals w dom, (withDomain goals w dom).Below d (withDomain' goals w dom))
    (goals w : List Term) (dom : Option Term) :
    (Facts.solveSequential withDomain goals w dom).Below d
      (Facts.solveSequential withDomain' goals w dom) := by
  induction goals generalizing w dom with
  | nil => exact .refl _
  | cons g goals ih =>
    unfold Facts.solveSequential
    exact .bind hd (h _ _ _) fun first => .bind hd (ih _ _) fun _ => .refl _

theorem clauses_below (hd : d ≠ .exhausted)
    (h : ∀ goals w dom, (withDomain goals w dom).Below d (withDomain' goals w dom))
    (goals w : List Term) (dom : Option Term) :
    (Facts.sequenceClause withDomain goals w dom).Below d
      (Facts.sequenceClause withDomain' goals w dom) ∧
    (Facts.firstClause withDomain goals w dom).Below d
      (Facts.firstClause withDomain' goals w dom) := by
  rcases goals_cases goals with ⟨args, rfl⟩ | rfl | hgoals
  · exact ⟨sequential_below hd h _ w dom, sequential_below hd h _ w dom⟩
  · exact ⟨.refl _, .refl _⟩
  · unfold Facts.sequenceClause Facts.firstClause
    simp only [onSequence_other hgoals]
    exact ⟨.refl _, .refl _⟩

end

/-- The two planners with their last clauses as parameters. -/
structure SolvesBelow (d : Ending) (unsatisfied unsatisfied' : Facts.Solve → Facts.Solve)
    (fuel fuel' : Nat) : Prop where
  solve6 : ∀ goals w forbidden dom,
    (Facts.solve6With unsatisfied fuel goals w forbidden dom).Below d
      (Facts.solve6With unsatisfied' fuel' goals w forbidden dom)
  withDomain : ∀ goals w dom,
    (Facts.solveWithDomainWith unsatisfied fuel goals w dom).Below d
      (Facts.solveWithDomainWith unsatisfied' fuel' goals w dom)

variable {unsatisfied unsatisfied' : Facts.Solve → Facts.Solve}

theorem SolvesBelow.zero (fuel : Nat) : SolvesBelow .timeout unsatisfied unsatisfied' 0 fuel :=
  ⟨fun _ _ _ _ => .stop _, fun _ _ _ => .stop _⟩

theorem SolvesBelow.succ (hd : d ≠ .exhausted) {fuel fuel' : Nat}
    (h : SolvesBelow d unsatisfied unsatisfied' fuel fuel')
    (hunsatisfied : ∀ goals w forbidden dom,
      (unsatisfied (Facts.solve6With unsatisfied fuel) goals w forbidden dom).Below d
        (unsatisfied' (Facts.solve6With unsatisfied' fuel') goals w forbidden dom)) :
    SolvesBelow d unsatisfied unsatisfied' (fuel + 1) (fuel' + 1) where
  solve6 goals w forbidden dom := by
    rw [Facts.solve6With, Facts.solve6With]
    split
    · exact .refl _
    · exact .append hd (clauses_below hd h.withDomain goals w dom).1 (hunsatisfied _ _ _ _)
  withDomain goals w dom := by
    rw [Facts.solveWithDomainWith, Facts.solveWithDomainWith]
    refine .commit hd (clauses_below hd h.withDomain goals w dom).2 ?_
    exact .bind hd (h.solve6 _ _ _ _) fun _ => .refl _

theorem rest_below (hd : d ≠ .exhausted) {solve solve' : Facts.Solve}
    (h : ∀ goals w forbidden dom, (solve goals w forbidden dom).Below d
      (solve' goals w forbidden dom)) (o : Opened) (before : Solution) (w2 : List Term) :
    (Facts.rest solve goals forbidden o before w2).Below d
      (Facts.rest solve' goals forbidden o before w2) := by
  unfold Facts.rest
  split
  · exact h _ _ _ _
  · exact .bind hd (.refl _) fun _ => h _ _ _ _

theorem recheck_below (hd : d ≠ .exhausted) {solve solve' : Facts.Solve}
    (h : ∀ goals w forbidden dom, (solve goals w forbidden dom).Below d
      (solve' goals w forbidden dom)) (o : Opened) (before : Solution) :
    (Facts.recheck solve goals forbidden o before).Below d
      (Facts.recheck solve' goals forbidden o before) := by
  refine .bind hd (.refl _) fun _ => .bind hd (.refl _) fun w2 => ?_
  exact .bind hd (rest_below hd h o before w2) fun _ => .refl _

section

variable {stop : Opened → List Term → Prop} [∀ o w, Decidable (stop o w)]

/-- Until it stops the search is the one without a stop. -/
theorem solveUntil_below (he : e ≠ .exhausted) (fuel : Nat) :
    SolvesBelow e (Facts.solveUntil actions stop e) (Facts.solveUnsatisfied actions) fuel fuel := by
  induction fuel with
  | zero => exact ⟨fun _ _ _ _ => .refl _, fun _ _ _ => .refl _⟩
  | succ fuel ih =>
    refine ih.succ he fun goals w forbidden dom => ?_
    unfold Facts.solveUntil Facts.solveUnsatisfied
    refine .bind he (.refl _) fun o => .bind he (ih.solve6 _ _ _ _) fun before => ?_
    split
    · exact .stop _
    · exact recheck_below he ih.solve6 o before

/-- With more fuel the search goes on where it ran out of it. -/
theorem solveUntil_more (fuel : Nat) : SolvesBelow .timeout (Facts.solveUntil actions stop e)
    (Facts.solveUntil actions stop e) fuel (fuel + 1) := by
  have hd : Ending.timeout ≠ .exhausted := nofun
  induction fuel with
  | zero => exact .zero 1
  | succ fuel ih =>
    refine ih.succ hd fun goals w forbidden dom => ?_
    unfold Facts.solveUntil
    refine .bind hd (.refl _) fun o => .bind hd (ih.solve6 _ _ _ _) fun before => ?_
    split
    · exact .refl _
    · exact recheck_below hd ih.solve6 o before

end

/-! ## The actions in the two spellings -/

inductive IsSpelling : (List Term → Term) → Prop where
  | term : IsSpelling seqTerm
  | list : IsSpelling seqList

variable {es es' : List Entry} {gs : List Term} {c c' : List Term → Term}
  {before after : List Action}

/-- The same action, or the action with its sequence spelled one way and the other. -/
def Respelled (es es' : List Entry) (gs : List Term) (c c' : List Term → Term) (a a' : Action) :
    Prop :=
  a = a' ∨ (a = withPre es (c gs) es' ∧ a' = withPre es (c' gs) es')

theorem respelled_actions : List.Forall₂ (Respelled es es' gs c c')
    (before ++ withPre es (c gs) es' :: after) (before ++ withPre es (c' gs) es' :: after) :=
  List.rel_append (List.forall₂_same.mpr fun _ _ => .inl rfl)
    (.cons (.inr ⟨rfl, rfl⟩) (List.forall₂_same.mpr fun _ _ => .inl rfl))

theorem withPre_filterMap {β : Type} {f : Entry → Option β} {t t' : Term}
    (h : f (.pre [t]) = f (.pre [t'])) :
    (withPre es t es').filterMap f = (withPre es t' es').filterMap f := by
  unfold withPre
  rw [List.filterMap_append, List.filterMap_append, List.filterMap_cons, List.filterMap_cons, h]

/-- Apart from its preconditions the action is the same in both spellings. -/
theorem withPre_parts (es es' : List Entry) (t t' : Term) :
    (withPre es t es').acts = (withPre es t' es').acts ∧
      (withPre es t es').adds = (withPre es t' es').adds ∧
      (withPre es t es').dels = (withPre es t' es').dels ∧
      (withPre es t es').domains = (withPre es t' es').domains ∧
      (withPre es t es').partials = (withPre es t' es').partials :=
  ⟨withPre_filterMap rfl, withPre_filterMap rfl, withPre_filterMap rfl, withPre_filterMap rfl,
    withPre_filterMap rfl⟩

theorem Respelled.parts {a a' : Action} (h : Respelled es es' gs c c' a a') :
    a.acts = a'.acts ∧ a.adds = a'.adds ∧ a.dels = a'.dels ∧ a.domains = a'.domains ∧
      a.partials = a'.partials := by
  rcases h with rfl | ⟨rfl, rfl⟩
  · exact ⟨rfl, rfl, rfl, rfl, rfl⟩
  · exact withPre_parts es es' _ _

theorem Respelled.doAction {a a' : Action} (h : Respelled es es' gs c c' a a') (w : List Term) :
    Kbase.doAction a w = Kbase.doAction a' w := by
  obtain ⟨-, hadds, hdels, -, hpartials⟩ := h.parts
  unfold Kbase.doAction
  rw [hadds, hdels, hpartials]

theorem Respelled.sameDomain {a a' : Action} (h : Respelled es es' gs c c' a a')
    (dom : Option Term) : Kbase.sameDomain a dom = Kbase.sameDomain a' dom := by
  unfold Kbase.sameDomain
  rw [h.parts.2.2.2.1]

/-- Preconditions of the same action, or its sequence in the two spellings. -/
def PreAlike (es es' : List Entry) (gs : List Term) (c c' : List Term → Term) (a a' : Action)
    (p p' : List Term) : Prop :=
  p = p' ∨ (a = withPre es (c gs) es' ∧ a' = withPre es (c' gs) es') ∧ p = [c gs] ∧ p' = [c' gs]

theorem Respelled.pres {a a' : Action} (h : Respelled es es' gs c c' a a') :
    List.Forall₂ (PreAlike es es' gs c c' a a') a.pres a'.pres := by
  have hsame : ∀ l : List (List Term), List.Forall₂ (PreAlike es es' gs c c' a a') l l :=
    fun l => List.forall₂_same.mpr fun _ _ => .inl rfl
  rcases h with rfl | ⟨rfl, rfl⟩
  · exact hsame _
  · unfold Action.pres
    rw [withPre, withPre, List.filterMap_append, List.filterMap_append]
    exact List.rel_append (hsame _) (.cons (.inr ⟨⟨rfl, rfl⟩, rfl, rfl⟩) (hsame _))

/-- Openings of the same action, or of the action in the two spellings. -/
structure OpensAlike (es es' : List Entry) (gs : List Term) (c c' : List Term → Term)
    (R : Term × List Term → Term × List Term → Prop) (o o' : Opened) : Prop where
  next : R o.next o'.next
  action : Respelled es es' gs c c' o.action o'.action
  domain : o.domain = o'.domain
  operator : o.operator = o'.operator
  precList : PreAlike es es' gs c c' o.action o'.action o.precList o'.precList

theorem openings_below (hd : d ≠ .exhausted) {R : Term × List Term → Term × List Term → Prop}
    (hR : ∀ n n', R n n' → n.1 = n'.1) {goals' : List Term}
    (hnext : List.Forall₂ R (getNextGoal goals) (getNextGoal goals')) {β : Type}
    {F G : Opened → Search β}
    (h : ∀ o o', OpensAlike es es' gs c c' R o o' → (F o).Below d (G o')) :
    ((Search.ofList (Facts.openings (before ++ withPre es (c gs) es' :: after) goals w forbidden
      dom)).bind F).Below d
    ((Search.ofList (Facts.openings (before ++ withPre es (c' gs) es' :: after) goals' w forbidden
      dom)).bind G) := by
  unfold Facts.openings Facts.achievers
  simp only [Search.ofList_flatMap_bind, Search.map_bind]
  refine .ofList hd hnext fun next _ next' _ hn => ?_
  rw [hR _ _ hn]
  refine .bind hd (.refl _) fun _ => .bind hd (.refl _) fun _ => ?_
  refine .ofList hd respelled_actions fun a ha a' ha' hres => ?_
  obtain ⟨hacts, hadds, -, -, -⟩ := hres.parts
  rw [hadds, hacts, hres.sameDomain]
  refine .bind hd (.refl _) fun _ => .bind hd (.refl _) fun _ => ?_
  refine .bind hd (.refl _) fun dom => .bind hd (.refl _) fun operator => ?_
  refine .ofList hd hres.pres fun p _ p' _ hp => .bind hd (.refl _) fun _ => ?_
  -- how often an action is equal to another one may depend on the spelling
  refine .repeated (.bind hd (.refl _) fun _ => h ⟨next, a, dom, operator, p⟩
    ⟨next', a', dom, operator, p'⟩ ⟨hn, hres, rfl, rfl, hp⟩) ?_ ?_
  · exact List.ne_nil_of_mem (List.mem_filter.mpr ⟨ha, decide_eq_true rfl⟩)
  · exact List.ne_nil_of_mem (List.mem_filter.mpr ⟨ha', decide_eq_true rfl⟩)

theorem IsSpelling.eq_or (hc : IsSpelling c) {β : Type} (f : Term → β) :
    f (c gs) = f (seqTerm gs) ∨ f (c gs) = f (seqList gs) := by
  cases hc with
  | term => exact .inl rfl
  | list => exact .inr rfl

theorem IsSpelling.forSequence (hc : IsSpelling c) {o : Opened}
    (haction : o.action = withPre es (c gs) es') (hprec : o.precList = [c gs]) :
    ForSequence es es' gs o := by
  unfold ForSequence
  rw [haction, hprec]
  exact ⟨hc.eq_or (withPre es · es'), hc.eq_or fun t => [t]⟩

theorem OpensAlike.forSequence_iff (hc : IsSpelling c) (hc' : IsSpelling c')
    {R : Term × List Term → Term × List Term → Prop} {o o' : Opened}
    (h : OpensAlike es es' gs c c' R o o') :
    ForSequence es es' gs o ↔ ForSequence es es' gs o' := by
  refine and_congr ?_ ?_
  · rcases h.action with heq | ⟨ho, ho'⟩
    · rw [heq]
    · rw [ho, ho']
      exact iff_of_true (hc.eq_or (withPre es · es')) (hc'.eq_or (withPre es · es'))
  · rcases h.precList with heq | ⟨-, ho, ho'⟩
    · rw [heq]
    · rw [ho, ho']
      exact iff_of_true (hc.eq_or fun t => [t]) (hc'.eq_or fun t => [t])

theorem OpensAlike.precList_eq (hc : IsSpelling c) {R : Term × List Term → Term × List Term → Prop}
    {o o' : Opened} (h : OpensAlike es es' gs c c' R o o') (ho : ¬ ForSequence es es' gs o) :
    o.precList = o'.precList :=
  h.precList.resolve_right fun ⟨⟨haction, _⟩, hprec, _⟩ => ho (hc.forSequence haction hprec)

/-! ## The goals in the two spellings -/

theorem getNextGoal_seqTerm {g : Term} (hg : g.IsFact) (goals : List Term) :
    getNextGoal [seqTerm (g :: goals)] = [(g, if goals = [] then [] else [seqTerm goals])] := by
  have hlist := hg.not_isList
  cases g with
  | nil => exact hg.elim
  | cons head tail => exact hg.elim
  | _ =>
    cases goals <;>
      simp [getNextGoal, seqTerm, Term.ofList, Term.isSeq, Term.seqArgs] <;> exact hlist

theorem IsSpelling.getNextGoal (hc : IsSpelling c) {g : Term} (hg : g.IsFact) (goals : List Term) :
    Kbase.getNextGoal [c (g :: goals)] = [(g, if goals = [] then [] else [c goals])] := by
  cases hc with
  | term => exact getNextGoal_seqTerm hg goals
  | list => exact getNextGoal_seqList g goals

theorem IsSpelling.sequenceClause (hc : IsSpelling c)
    {withDomain : List Term → List Term → Option Term → Search Solution} (hne : gs ≠ [])
    (hfacts : ∀ g ∈ gs, g.IsFact) (w : List Term) (dom : Option Term) :
    Facts.sequenceClause withDomain [c gs] w dom = Facts.solveSequential withDomain gs w dom := by
  obtain ⟨g, gs, rfl⟩ := List.exists_cons_of_ne_nil hne
  cases hc with
  | term => exact sequenceClause_seqTerm hfacts
  | list => exact sequenceClause_seqList hfacts

theorem IsSpelling.held (hc : IsSpelling c) (hfacts : ∀ g ∈ gs, g.IsFact)
    (h : holdsIn w (.ofList [c gs]) = true) : ∀ g ∈ gs, g ∈ w := by
  rw [holdsIn_goal] at h
  cases hc with
  | term =>
    rw [testIn_seqTerm hfacts] at h
    cases h
  | list => rwa [testIn_seqList, testIn_ofList hfacts] at h

/-- A goal that holds already opens nothing. -/
theorem IsSpelling.openings_held (hc : IsSpelling c) {g : Term} {goals : List Term}
    (hg : g.IsFact) (hgw : g ∈ w) (forbidden : List (List Term)) (dom : Option Term) :
    Facts.openings actions [c (g :: goals)] w forbidden dom = [] := by
  refine List.eq_nil_iff_forall_not_mem.mpr fun o ho => ?_
  have hopens := mem_openings.mp ho
  have hnext := hopens.next
  have habsent := hopens.absent
  rw [hc.getNextGoal hg] at hnext
  rw [List.mem_singleton.mp hnext] at habsent
  exact habsent hgw

/-- The same goals, or a sequence in the two spellings. -/
inductive Fits (c c' : List Term → Term) : List Term → List Term → Prop where
  | same (goals : List Term) : Fits c c' goals goals
  | spelled {gs : List Term} (hne : gs ≠ []) (hfacts : ∀ g ∈ gs, g.IsFact) :
      Fits c c' [c gs] [c' gs]

variable {goals' : List Term}

theorem Fits.next (hc : IsSpelling c) (hc' : IsSpelling c') (h : Fits c c' goals goals') :
    List.Forall₂ (fun n n' => n.1 = n'.1 ∧ Fits c c' n.2 n'.2) (Kbase.getNextGoal goals)
      (Kbase.getNextGoal goals') := by
  cases h with
  | same => exact List.forall₂_same.mpr fun n _ => ⟨rfl, .same _⟩
  | @spelled gs hne hfacts =>
    obtain ⟨g, gs, rfl⟩ := List.exists_cons_of_ne_nil hne
    rw [hc.getNextGoal (hfacts g List.mem_cons_self), hc'.getNextGoal (hfacts g List.mem_cons_self)]
    refine .cons ⟨rfl, ?_⟩ .nil
    dsimp only
    split <;> rename_i hgs
    · exact .same _
    · exact .spelled hgs fun g' hg' => hfacts g' (List.mem_cons_of_mem _ hg')

theorem PreAlike.fits (hne : gs ≠ []) (hfacts : ∀ g ∈ gs, g.IsFact) {a a' : Action}
    {p p' : List Term} (h : PreAlike es es' gs c c' a a' p p') : Fits c c' p p' := by
  rcases h with rfl | ⟨-, rfl, rfl⟩
  · exact .same _
  · exact .spelled hne hfacts

/-- What the search for goals in one spelling is to that in the other. -/
def RespellsBelow (c c' : List Term → Term) (solve solve' : Facts.Solve) : Prop :=
  ∀ ⦃goals goals' : List Term⦄, Fits c c' goals goals' → ∀ w forbidden dom,
    (solve goals w forbidden dom).Below .timeout (solve' goals' w forbidden dom)

/-- What comes after the re-check is the same for both spellings. -/
theorem recheck_respelled {solve solve' : Facts.Solve} (hsolve : RespellsBelow c c' solve solve')
    (hfits : Fits c c' goals goals') {o o' : Opened} (ho : OpensAlike es es' gs c c'
      (fun n n' => n.1 = n'.1 ∧ Fits c c' n.2 n'.2) o o')
    (hprec : o.precList = o'.precList) (r : Solution) :
    (Facts.recheck solve goals forbidden o r).Below .timeout
      (Facts.recheck solve' goals' forbidden o' r) := by
  have hd : Ending.timeout ≠ .exhausted := nofun
  unfold Facts.recheck Facts.rest
  rw [hprec, ho.action.doAction, ho.operator, ho.action.parts.2.2.2.2]
  refine .bind hd (.refl _) fun _ => .bind hd (.refl _) fun w2 => .bind hd ?_ fun _ => .refl _
  split
  · exact hsolve ho.next.2 _ _ _
  · exact .bind hd (.refl _) fun _ => hsolve hfits _ _ _

/-- Where the sequence is not found in either spelling, nothing comes after the re-check. -/
theorem recheck_not_passed {solve : Facts.Solve} {o : Opened} (ho : ForSequence es es' gs o)
    {r : Solution} (h : ¬ Passes es es' gs o r.world) :
    Facts.recheck solve goals forbidden o r = .fail := by
  have hnone : preconditionsHold o.precList r.world = [] := by
    by_contra hfound
    refine h ⟨ho, ?_⟩
    rcases ho.2 with hprec | hprec
    · exact .inl (by rwa [hprec] at hfound)
    · exact .inr (by rwa [hprec] at hfound)
  rw [Facts.recheck, hnone]
  rfl

/-- The last clause for the actions with the sequence spelled as `t`, until the re-check finds
    it. -/
abbrev untilSequence (before after : List Action) (es es' : List Entry) (gs : List Term)
    (e : Ending) (t : Term) : Facts.Solve → Facts.Solve :=
  Facts.solveUntil (before ++ withPre es t es' :: after) (Passes es es' gs) e

theorem untilSequence_respelled (before after : List Action) (es es' : List Entry) (e : Ending)
    (hc : IsSpelling c) (hc' : IsSpelling c') (hne : gs ≠ []) (hfacts : ∀ g ∈ gs, g.IsFact)
    {solve solve' : Facts.Solve} (hsolve : RespellsBelow c c' solve solve') :
    RespellsBelow c c' (untilSequence before after es es' gs e (c gs) solve)
      (untilSequence before after es es' gs e (c' gs) solve') := by
  have hd : Ending.timeout ≠ .exhausted := nofun
  intro goals goals' hfits w forbidden dom
  refine openings_below hd (fun _ _ hn => hn.1) (hfits.next hc hc') fun o o' ho => ?_
  rw [ho.operator, ho.domain]
  refine .bind hd (hsolve (ho.precList.fits hne hfacts) _ _ _) fun r => ?_
  have hseq := ho.forSequence_iff hc hc'
  have hstop : Passes es es' gs o r.world ↔ Passes es es' gs o' r.world := and_congr_left' hseq
  by_cases hpasses : Passes es es' gs o r.world
  · rw [if_pos hpasses, if_pos (hstop.mp hpasses)]
    exact .refl _
  · have hpasses' := mt hstop.mpr hpasses
    rw [if_neg hpasses, if_neg hpasses']
    by_cases ho' : ForSequence es es' gs o
    · rw [recheck_not_passed ho' hpasses, recheck_not_passed (hseq.mp ho') hpasses']
      exact .refl _
    · exact recheck_respelled hsolve hfits ho (ho.precList_eq hc ho') r

/-! ## The two spellings until the re-check -/

theorem sequential_timeout (hne : gs ≠ []) (hfacts : ∀ g ∈ gs, g.IsFact) {fuel : Nat}
    (hfuel : fuel < 2) : Facts.solveSequential (Facts.solveWithDomainWith unsatisfied fuel) gs w
      dom = .timeout := by
  obtain ⟨g, gs, rfl⟩ := List.exists_cons_of_ne_nil hne
  have hfirst : Facts.solveWithDomainWith unsatisfied fuel [g] w dom = .timeout := by
    rcases fuel with _ | _ | fuel
    · rfl
    · rw [Facts.solveWithDomainWith, Facts.firstClause,
        onSequence_other (hfacts g List.mem_cons_self).noSeq]
      rfl
    · omega
  rw [Facts.solveSequential, hfirst]
  rfl

/-- A sequence that holds already needs no plan, which the clause for sequences finds if there is
    the fuel for it. -/
theorem solve6_held {stop : Opened → List Term → Prop} [∀ o w, Decidable (stop o w)]
    (hc : IsSpelling c) (hne : gs ≠ []) (hfacts : ∀ g ∈ gs, g.IsFact) (hheld : ∀ g ∈ gs, g ∈ w)
    (fuel : Nat) :
    Facts.solve6With (Facts.solveUntil actions stop e) fuel [c gs] w forbidden dom =
        .one ⟨w, [], dom⟩ ∨
      (Facts.solve6With (Facts.solveUntil actions stop e) fuel [c gs] w forbidden dom = .timeout ∧
        fuel < 3) := by
  have hopenings : Facts.openings actions [c gs] w forbidden dom = [] := by
    obtain ⟨g, gs, rfl⟩ := List.exists_cons_of_ne_nil hne
    exact hc.openings_held (hfacts g List.mem_cons_self) (hheld g List.mem_cons_self) _ _
  cases fuel with
  | zero => exact .inr ⟨rfl, by omega⟩
  | succ fuel =>
    rw [Facts.solve6With]
    split
    · exact .inl rfl
    · rw [hc.sequenceClause hne hfacts]
      by_cases hfuel : fuel < 2
      · rw [sequential_timeout hne hfacts hfuel]
        exact .inr ⟨rfl, by omega⟩
      · obtain ⟨n, rfl⟩ := Nat.exists_eq_add_of_le (Nat.le_of_not_lt hfuel)
        rw [Nat.add_comm, sequentialWith_held hfacts hheld, Facts.solveUntil, hopenings]
        exact .inl rfl

theorem held_respelled (hc : IsSpelling c) (hc' : IsSpelling c') (hne : gs ≠ [])
    (hfacts : ∀ g ∈ gs, g.IsFact) (hheld : ∀ g ∈ gs, g ∈ w) {actions' : List Action}
    {stop : Opened → List Term → Prop} [∀ o w, Decidable (stop o w)] (fuel : Nat) :
    (Facts.solve6With (Facts.solveUntil actions stop e) fuel [c gs] w forbidden dom).Below .timeout
      (Facts.solve6With (Facts.solveUntil actions' stop e) (fuel + 2) [c' gs] w forbidden
        dom) := by
  cases fuel with
  | zero => exact .stop _
  | succ fuel =>
    have hone : Facts.solve6With (Facts.solveUntil actions' stop e) (fuel + 1 + 2) [c' gs] w
        forbidden dom = .one ⟨w, [], dom⟩ :=
      (solve6_held hc' hne hfacts hheld _).resolve_right fun h => by omega
    rw [hone]
    have hheld' : Facts.solve6With (Facts.solveUntil actions stop e) (fuel + 1) [c gs] w forbidden
        dom = .one ⟨w, [], dom⟩ ∨ _ := solve6_held hc hne hfacts hheld _
    rcases hheld' with hone' | ⟨htimeout, -⟩
    · rw [hone']
      exact .refl _
    · rw [htimeout]
      exact .stop _

/-- Until the re-check finds the sequence, the search goes the same way in both spellings, with a
    little more fuel for one of them. -/
theorem solveUntil_respelled (before after : List Action) (es es' : List Entry) (e : Ending)
    (hc : IsSpelling c) (hc' : IsSpelling c') (hne : gs ≠ []) (hfacts : ∀ g ∈ gs, g.IsFact)
    (fuel : Nat) :
    SolvesBelow .timeout (untilSequence before after es es' gs e (c gs))
      (untilSequence before after es es' gs e (c' gs)) fuel (fuel + 2) ∧
    RespellsBelow c c' (Facts.solve6With (untilSequence before after es es' gs e (c gs)) fuel)
      (Facts.solve6With (untilSequence before after es es' gs e (c' gs)) (fuel + 2)) := by
  have hd : Ending.timeout ≠ .exhausted := nofun
  induction fuel with
  | zero => exact ⟨.zero 2, fun _ _ _ _ _ _ => .stop _⟩
  | succ fuel ih =>
    obtain ⟨ihsolves, ihrespells⟩ := ih
    have hlast := untilSequence_respelled before after es es' e hc hc' hne hfacts ihrespells
    have hsolves := ihsolves.succ hd fun goals => hlast (.same goals)
    refine ⟨hsolves, fun goals goals' hfits w forbidden dom => ?_⟩
    cases hfits with
    | same => exact hsolves.solve6 _ _ _ _
    | @spelled gs' hne' hfacts' =>
      by_cases hheld : ∀ g ∈ gs', g ∈ w
      · exact held_respelled hc hc' hne' hfacts' hheld (fuel + 1)
      · rw [Facts.solve6With, Facts.solve6With, if_neg (mt (hc.held hfacts') hheld),
          if_neg (mt (hc'.held hfacts') hheld), hc.sequenceClause hne' hfacts',
          hc'.sequenceClause hne' hfacts']
        refine .append hd (sequential_below hd ihsolves.withDomain gs' w dom) ?_
        exact hlast (.spelled hne' hfacts') w forbidden dom

/-! ## The first plan -/

variable {out : Outside} {asked w0 : List Term}

/-- A first plan with fuel that is also enough for the other spelling. -/
theorem outcome_respelled (hc : IsSpelling c) (hc' : IsSpelling c') (hne : gs ≠ [])
    (hfacts : ∀ g ∈ gs, g.IsFact) {fuel : Nat} {o : Solution ⊕ Ending}
    (h : (Facts.solveWithDomainWith (untilSequence before after es es' gs e (c gs)) fuel asked w0
      none).outcome = o) (ho : o ≠ .inr .timeout) :
    (Facts.solveWithDomainWith (untilSequence before after es es' gs e (c' gs)) (fuel + 2) asked
      w0 none).outcome = o := by
  subst h
  have hbelow := (solveUntil_respelled before after es es' e hc hc' hne hfacts fuel).1
  exact ((hbelow.withDomain asked w0 none).outcome.resolve_left ho).symm

theorem outcome_of_until {stop : Opened → List Term → Prop} [∀ o w, Decidable (stop o w)]
    (he : e ≠ .exhausted) {fuel : Nat} {o : Solution ⊕ Ending} (h : (Facts.solveWithDomainWith
      (Facts.solveUntil actions stop e) fuel asked w0 none).outcome = o) (ho : o ≠ .inr e) :
    (Facts.solveWithDomain actions fuel asked w0 none).outcome = o := by
  subst h
  exact (((solveUntil_below he fuel).withDomain asked w0 none).outcome.resolve_left ho).symm

theorem outcome_more {stop : Opened → List Term → Prop} [∀ o w, Decidable (stop o w)] {fuel : Nat}
    {r : Solution}
    (h : (Facts.solveWithDomainWith (Facts.solveUntil actions stop e) fuel asked w0 none).outcome =
      .inl r) :
    (Facts.solveWithDomainWith (Facts.solveUntil actions stop e) (fuel + 1) asked w0 none).outcome =
      .inl r := by
  have hmore : SolvesBelow .timeout (Facts.solveUntil actions stop e)
      (Facts.solveUntil actions stop e) fuel (fuel + 1) := solveUntil_more fuel
  refine ((hmore.withDomain asked w0 none).outcome.resolve_left ?_).symm.trans h
  rw [h]
  exact nofun

/-- A first plan that is found before, with the fuel that it takes to find it. -/
theorem NotPassed.of_found (fuel : Nat) (r : Solution) (hless : ∀ e, e ≠ .exhausted → ∀ n < fuel,
      (Facts.solveWithDomainWith (Facts.solveUntil actions (Passes es es' gs) e) n asked w0
        none).outcome = (Facts.solveWithDomain actions n asked w0 none).outcome)
    (hfound : ∀ e, e ≠ .exhausted →
      (Facts.solveWithDomainWith (Facts.solveUntil actions (Passes es es' gs) e) fuel asked w0
        none).outcome = .inl r) : NotPassed actions es es' gs asked w0 := by
  intro e he n
  rcases Nat.lt_or_ge n fuel with hn | hn
  · exact hless e he n hn
  · have hplan : (Facts.solveWithDomainWith (Facts.solveUntil actions (Passes es es' gs) e) n
        asked w0 none).outcome = .inl r := by
      induction n, hn using Nat.le_induction with
      | base => exact hfound e he
      | succ n hn ih => exact outcome_more ih
    rw [hplan, outcome_of_until he hplan nofun]

/-- Where the search does not pass the re-check before its first plan, the first plan is the same in
    both spellings. -/
theorem NotPassed.same (hnotPassed : NotPassed (before ++ withPre es (seqTerm gs) es' :: after)
      es es' gs asked w0) (hne : gs ≠ []) (hfacts : ∀ g ∈ gs, g.IsFact)
    (h : FactDomain out (before ++ withPre es (seqList gs) es' :: after))
    (hasked : Closed out asked) (hw0 : FactWorld out w0) (r : Solution) :
    (∃ fuel, (Facts.solveWithDomain (before ++ withPre es (seqTerm gs) es' :: after) fuel asked w0
      none).outcome = .inl r) ↔
    ∃ fuel, (Facts.solveWithDomain (before ++ withPre es (seqList gs) es' :: after) fuel asked w0
      none).outcome = .inl r := by
  have hraised : Ending.raised ≠ .exhausted := nofun
  have htimeout : Ending.timeout ≠ .exhausted := nofun
  constructor
  · rintro ⟨fuel, hplan⟩
    rw [← hnotPassed .raised hraised] at hplan
    exact ⟨fuel + 2, outcome_of_until hraised
      (outcome_respelled .term .list hne hfacts hplan nofun) nofun⟩
  · rintro ⟨fuel, hplan⟩
    refine ⟨fuel + 2, ?_⟩
    rw [← hnotPassed .raised hraised]
    refine outcome_respelled .list .term hne hfacts ?_ nofun
    by_contra hother
    -- the list would pass the re-check, so the term raises an error, and so does the list
    have hstop : (Facts.solveWithDomainWith (untilSequence before after es es' gs .raised
        (seqList gs)) fuel asked w0 none).outcome = .inr .raised := by
      by_contra hgoes
      exact hother ((outcome_of_until hraised rfl hgoes).symm.trans hplan)
    have hterm := outcome_respelled .list .term hne hfacts hstop nofun
    rw [hnotPassed .raised hraised, ← hnotPassed .timeout htimeout] at hterm
    have hlist := outcome_of_until htimeout
      (outcome_respelled .term .list hne hfacts hterm nofun) nofun
    have hhead := (Facts.solveWithDomain_extends h hasked hw0 none
      (Nat.le_add_right fuel 4)).head (Search.outcome_eq_inl.mp hplan)
    rw [(Search.outcome_eq_inr.mp hlist).1] at hhead
    cases hhead

/-! ## Actions that are not needed -/

/-- The action adds nothing that the goals ask for. -/
def Irrelevant (a : Action) (goals : List Term) : Prop :=
  ∀ addList ∈ a.adds, ∀ t ∈ addList, t ∉ calls goals

theorem Irrelevant.mono {a : Action} {goals goals' : List Term} (h : Irrelevant a goals)
    (hsub : calls goals' ⊆ calls goals) : Irrelevant a goals' :=
  fun addList hadd t ht hcall => h addList hadd t ht (hsub hcall)

theorem isFact_compound {name : String} (hname : name ≠ "seq") (args : Term) :
    (Term.compound name args).IsFact := by
  simp [Term.IsFact, Term.isSeq, Term.seqArgs, hname]

/-- A fact is the one thing it calls. -/
theorem mem_calls_fact {g : Term} (hg : g.IsFact) : g ∈ g.calls := by
  cases g with
  | nil => exact hg.elim
  | cons head tail => exact hg.elim
  | compound name args =>
    rw [Term.calls, if_neg hg.compound_ne]
    exact List.mem_singleton_self _
  | _ => exact List.mem_singleton_self _

/-- A goal holds in any other world that has the facts it calls. -/
theorem testIn_mono {w w' : List Term} {goal : Term} (h : ∀ t ∈ goal.calls, t ∈ w → t ∈ w')
    (htest : testIn w goal = true) : testIn w' goal = true := by
  have fact : ∀ {t : Term}, t.IsFact → (∀ c ∈ t.calls, c ∈ w → c ∈ w') →
      decide (t ∈ w) = true → testIn w' t = true := fun {t} ht h hmem => by
    rw [testIn_fact ht]
    exact decide_eq_true (h t (mem_calls_fact ht) (of_decide_eq_true hmem))
  fun_induction testIn w goal with
  | case1 => rfl
  | case2 goal goals ihgoal ihgoals =>
    rw [testIn, Bool.or_eq_true, Bool.and_eq_true, Bool.and_eq_true] at *
    rcases htest with ⟨hlist, hmem⟩ | ⟨hgoal, hgoals⟩
    · refine .inl ⟨hlist, decide_eq_true (h _ ?_ (of_decide_eq_true hmem))⟩
      rw [Term.calls_cons, if_neg (by simpa using hlist)]
      exact List.mem_append_left _ (List.mem_append_left _ (List.mem_singleton_self _))
    · exact .inr ⟨ihgoal (fun t ht => h t (goal.calls_head_subset goals ht)) hgoal,
        ihgoals (fun t ht => h t (goal.calls_tail_subset goals ht)) hgoals⟩
  | case3 l ih =>
    rw [Bool.and_eq_true] at htest
    rw [testIn, if_pos rfl, Bool.and_eq_true]
    rw [← calls_singleton, calls_seq_list] at h
    exact ⟨htest.1, ih h htest.2⟩
  | case4 name l hname => exact fact (isFact_compound hname _) h htest
  | case5 => cases htest
  | case6 name args _ hname => exact fact (isFact_compound hname args) h htest
  | case7 => cases htest
  | case8 name hname => exact fact (by simp [Term.IsFact, Term.isSeq, Term.seqArgs, hname]) h htest
  | case9 value => exact fact (t := .int value) rfl h htest

/-- An irrelevant action does not achieve a goal that does not hold yet. -/
theorem Irrelevant.not_achiever {a : Action} {goal : Term} (h : Irrelevant a [goal])
    {w : List Term} (hunsat : holdsIn w (.ofList [goal]) = false) {addList : List Term}
    (hadd : addList ∈ a.adds) : holdsIn addList goal = false := by
  by_contra hholds
  rw [Bool.not_eq_false, holdsIn, Bool.and_eq_true] at hholds
  rw [holdsIn_goal, testIn_mono (fun t ht hmem => ?_) hholds.1] at hunsat
  · cases hunsat
  · rw [← calls_singleton] at ht
    exact absurd ht (h addList hadd t hmem)

theorem solveSequential_congr
    {withDomain withDomain' : List Term → List Term → Option Term → Search Solution}
    {goals : List Term} (h : ∀ g ∈ goals, ∀ w dom, withDomain [g] w dom = withDomain' [g] w dom)
    (w : List Term) (dom : Option Term) : Facts.solveSequential withDomain goals w dom =
      Facts.solveSequential withDomain' goals w dom := by
  induction goals generalizing w dom with
  | nil => rfl
  | cons g goals ih =>
    rw [Facts.solveSequential, Facts.solveSequential, h g List.mem_cons_self]
    simp only [ih fun g' hg' => h g' (List.mem_cons_of_mem _ hg')]

theorem clauses_congr
    {withDomain withDomain' : List Term → List Term → Option Term → Search Solution}
    {goals : List Term}
    (h : ∀ goals', calls goals' ⊆ calls goals → ∀ w dom, withDomain goals' w dom =
      withDomain' goals' w dom) (w : List Term) (dom : Option Term) :
    Facts.sequenceClause withDomain goals w dom = Facts.sequenceClause withDomain' goals w dom ∧
    Facts.firstClause withDomain goals w dom = Facts.firstClause withDomain' goals w dom := by
  rcases goals_cases goals with ⟨args, rfl⟩ | rfl | hgoals
  · exact ⟨solveSequential_congr (fun g hg => h [g] (calls_parts_subset (.inl hg))) w dom,
      solveSequential_congr (fun g hg => h [g] (calls_parts_subset (.inr hg))) w dom⟩
  · exact ⟨rfl, rfl⟩
  · unfold Facts.sequenceClause Facts.firstClause
    constructor <;> rw [onSequence_other hgoals, onSequence_other hgoals]

theorem solveUntil_congr {stop : Opened → List Term → Prop} [∀ o w, Decidable (stop o w)]
    {solve solve' : Facts.Solve}
    (hstop : ∀ o, Opens actions goals w forbidden dom o → ∀ w1, ¬ stop o w1)
    (hgoals : ∀ w forbidden dom, solve goals w forbidden dom = solve' goals w forbidden dom)
    (hopened : ∀ o, Opens actions goals w forbidden dom o → ∀ goals ∈ [o.precList, o.next.2],
      ∀ w forbidden dom, solve goals w forbidden dom = solve' goals w forbidden dom) :
    Facts.solveUntil actions stop e solve goals w forbidden dom =
      Facts.solveUnsatisfied actions solve' goals w forbidden dom := by
  unfold Facts.solveUntil Facts.solveUnsatisfied
  refine Search.bind_congr fun o ho => ?_
  have hopens := mem_openings.mp ho
  have hpre := hopened o hopens o.precList List.mem_cons_self
  have hnext := hopened o hopens o.next.2 (List.mem_cons_of_mem _ List.mem_cons_self)
  simp only [if_neg (hstop o hopens _), Facts.recheck, Facts.rest, hpre, hnext, hgoals]

/-- The action adds nothing that the goals or the preconditions of the other actions ask for. -/
structure Unneeded (a : Action) (others : List Action) (goals : List Term) : Prop where
  goals : Irrelevant a goals
  pres : ∀ b ∈ others, ∀ precList ∈ b.pres, Irrelevant a precList

theorem Irrelevant.not_opened {a : Action} (h : Irrelevant a goals) {o : Opened}
    (ho : Opens actions goals w forbidden dom o) : o.action.adds ≠ a.adds := by
  intro heq
  have hgoal : Irrelevant a [o.next.1] := h.mono (by
    rw [calls_singleton]
    exact (calls_next ho.next).1)
  obtain ⟨-, addList, hadd, hholds⟩ := mem_achievers.mp ho.action
  rw [heq] at hadd
  rw [hgoal.not_achiever ho.unsatisfied hadd] at hholds
  cases hholds

theorem Irrelevant.opened_other {a : Action} (h : Irrelevant a goals) {o : Opened}
    (ho : Opens (before ++ a :: after) goals w forbidden dom o) : o.action ∈ before ++ after := by
  have hmem := (mem_achievers.mp ho.action).1
  rw [List.mem_append, List.mem_cons] at hmem
  rw [List.mem_append]
  exact hmem.imp_right fun hmem => hmem.resolve_left fun heq => h.not_opened ho (by rw [heq])

/-- The search does not come to an action that adds nothing that is asked for. -/
theorem solveUntil_unneeded (hpres : ∀ b ∈ before ++ after, ∀ precList ∈ b.pres,
      Irrelevant (withPre es (seqTerm gs) es') precList) (fuel : Nat) :
    (∀ goals w forbidden dom, Irrelevant (withPre es (seqTerm gs) es') goals →
      Facts.solve6With (untilSequence before after es es' gs e (seqTerm gs)) fuel goals w forbidden
        dom = Facts.solve6 (before ++ withPre es (seqTerm gs) es' :: after) fuel goals w forbidden
        dom) ∧
    ∀ goals w dom, Irrelevant (withPre es (seqTerm gs) es') goals →
      Facts.solveWithDomainWith (untilSequence before after es es' gs e (seqTerm gs)) fuel goals w
        dom = Facts.solveWithDomain (before ++ withPre es (seqTerm gs) es' :: after) fuel goals w
        dom := by
  induction fuel with
  | zero => exact ⟨fun _ _ _ _ _ => rfl, fun _ _ _ _ => rfl⟩
  | succ fuel ih =>
    obtain ⟨ihsolve, ihwithDomain⟩ := ih
    refine ⟨fun goals w forbidden dom hgoals => ?_, fun goals w dom hgoals => ?_⟩
    · have hlast : untilSequence before after es es' gs e (seqTerm gs)
          (Facts.solve6With (untilSequence before after es es' gs e (seqTerm gs)) fuel) goals w
          forbidden dom =
          Facts.solveUnsatisfied (before ++ withPre es (seqTerm gs) es' :: after)
            (Facts.solve6 (before ++ withPre es (seqTerm gs) es' :: after) fuel) goals w forbidden
            dom := by
        refine solveUntil_congr (fun o ho w1 => ?_) (fun w forbidden dom => ihsolve _ _ _ _ hgoals)
          fun o ho goals' hgoals' w forbidden dom => ihsolve _ _ _ _ ?_
        · rintro ⟨⟨haction | haction, -⟩, -⟩
          · exact hgoals.not_opened ho (by rw [haction])
          · exact hgoals.not_opened ho (by rw [haction, (withPre_parts es es' _ (seqTerm gs)).2.1])
        · rcases List.mem_cons.mp hgoals' with rfl | hgoals'
          · exact hpres o.action (hgoals.opened_other ho) _ ho.precList
          · rw [List.mem_singleton.mp hgoals']
            exact hgoals.mono (calls_next ho.next).2
      rw [Facts.solve6With, Facts.solve6_succ, (clauses_congr (fun goals' hsub w dom =>
        ihwithDomain goals' w dom (hgoals.mono hsub)) w dom).1, hlast]
    · rw [Facts.solveWithDomainWith, Facts.solveWithDomain_succ, (clauses_congr
        (fun goals' hsub w dom => ihwithDomain goals' w dom (hgoals.mono hsub)) w dom).2]
      unfold Facts.solveGoals
      rw [ihsolve _ _ _ _ hgoals]

theorem Unneeded.notPassed (h : Unneeded (withPre es (seqTerm gs) es') (before ++ after) asked)
    (w0 : List Term) : NotPassed (before ++ withPre es (seqTerm gs) es' :: after) es es' gs asked
      w0 := fun _ _ fuel =>
  congrArg Search.outcome ((solveUntil_unneeded h.pres fuel).2 asked w0 none h.goals)

end SmartWarehouse.Kbase
