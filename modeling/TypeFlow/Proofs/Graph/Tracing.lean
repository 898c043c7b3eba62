import TypeFlow.Proofs.Graph.Progress

/-!
# Progress through any graph

In a graph with cycles the search comes back to nodes that are still marked. It notes the cycle
and goes on without the node, so what a node was made from may be less than what its sources have
in the end. Four things stay true of every instance: it is the default one if a cycle was noted,
no way leads back to the node without passing a noted cycle, it was made from some of what its
inputs take in the end, and it satisfies its equation if the node depends on no cycle at all.
-/

namespace TypeFlow

open Function (update_of_ne update_self)

/-- A node from which no step back is endless does not depend on itself. -/
theorem not_transGen_self_of_acc {α : Type} {r : α → α → Prop} {a : α} (acc : Acc r a) :
    ¬ Relation.TransGen r a a := by
  have closed : Acc (Relation.TransGen r) a := acc.transGen
  induction closed with
  | intro a _ ih => exact fun loop => ih a loop acc loop

/-- The source feeds the target, and no cycle through it is noted. -/
def Clear (s : Setting) (p : Progress) (source target : NodeId) : Prop :=
  s.Feeds source target ∧ p.error? source ≠ some (.cycle source)

/-- What is known stays, and nothing more is noted of a node that has an instance. -/
structure Advances (p p' : Progress) : Prop extends Grows p p' where
  final : ∀ id r, p.table id = some r → p'.error? id = p.error? id

/-- No step is an advance. -/
theorem Advances.refl (p : Progress) : Advances p p := ⟨.refl p, fun _ _ _ => rfl⟩

/-- Advances in sequence. -/
theorem Advances.trans {p p' p'' : Progress} (first : Advances p p') (second : Advances p' p'') :
    Advances p p'' := by
  refine ⟨first.toGrows.trans second.toGrows, fun id r found => ?_⟩
  rw [second.final id r (first.table id r found), first.final id r found]

/-- What is known of the instance of a node. -/
structure Found (s : Setting) (p : Progress) (node : Node) (signature : Signature)
    (r : Resolved) : Prop where
  known : s.Known node signature
  fallback : p.error? node.id = some (.cycle node.id) → r = Resolve.fallback node signature
  clear : Acc (Clear s p) node.id
  made : p.error? node.id = some (.cycle node.id) ∨ ∃ provider : InputId → Option Ty,
    (∀ input ∈ signature.inputs.map (·.1), s.Took p.table node signature input (provider input)) ∧
    s.Outcome node signature (s.boundTo provider node signature) r (p.error? node.id)
  outcome : Acc s.Feeds node.id →
    s.Outcome node signature (s.bound p.table node signature) r (p.error? node.id)
  fed : Acc s.Feeds node.id → ∀ source, s.Feeds source node.id → Settled s p source

/-- What is known of the error of a node. -/
inductive Noted (s : Setting) (p : Progress) : NodeId → NodeError → Prop
  | unknown {node : Node} (unknown : s.Unknown node) :
    Noted s p node.id (.unknownSchema node.schemaId)
  | evaluation {id : NodeId} {r : Resolved} (found : p.table id = some r) (e : EvalError) :
    Noted s p id (.evaluation e)
  | cycle {id : NodeId} (loop : Relation.TransGen s.Feeds id id)
    (held : p.Marked id ∨ ∃ r, p.table id = some r) : Noted s p id (.cycle id)

/-- The invariant of the search, with the nodes that are being resolved. -/
structure Traced (s : Setting) (stack : List NodeId) (p : Progress) : Prop where
  marks : ∀ id, p.Marked id ↔ id ∈ stack
  found : ∀ id r, p.table id = some r →
    ∃ node signature, node.id = id ∧ Found s p node signature r
  noted : ∀ id e, p.error? id = some e → Noted s p id e

/-- The search has come to a node: it is settled, or a cycle through it is noted. -/
inductive Visited (s : Setting) (p : Progress) (id : NodeId) : Prop
  | settled (settled : Settled s p id) : Visited s p id
  | cycle (noted : p.error? id = some (.cycle id)) : Visited s p id

/-- How a node is finished: with the default instance if a cycle through it is noted, and with
the outcome of binding it otherwise. -/
inductive Finish (s : Setting) (p : Progress) (node : Node) (signature : Signature) :
    Resolved → Option NodeError → Prop
  | cycle (noted : p.error? node.id = some (.cycle node.id)) :
    Finish s p node signature (Resolve.fallback node signature) (some (.cycle node.id))
  | bound {result : Run EvalError Instance} {r : Resolved} {e : Option NodeError}
    {provider : InputId → Option Ty} (clear : p.error? node.id = none)
    (outcome : s.Outcome node signature result r e)
    (grounded : Acc s.Feeds node.id → result = s.bound p.table node signature)
    (bound : result = s.boundTo provider node signature)
    (took : ∀ input ∈ signature.inputs.map (·.1),
      s.Took p.table node signature input (provider input)) :
    Finish s p node signature r e

section

variable {s : Setting} {stack : List NodeId} {p p' : Progress} {node : Node}
  {signature : Signature}

variable {id : NodeId}

/-- Visited nodes stay visited. -/
theorem Visited.mono (grows : Grows p p') (visited : Visited s p id) : Visited s p' id := by
  cases visited with
  | settled settled => exact .settled (settled.mono grows)
  | cycle noted => exact .cycle (grows.errors _ _ noted)

/-- With more cycles noted, fewer ways are clear. -/
theorem acc_clear_mono (grows : Grows p p') (acc : Acc (Clear s p) id) : Acc (Clear s p') id := by
  have fewer : Subrelation (Clear s p') (Clear s p) := by
    intro source target clear
    exact ⟨clear.1, fun noted => clear.2 (grows.errors _ _ noted)⟩
  exact fewer.accessible acc

/-- Nothing feeds a node that is missing or has an unknown schema. -/
theorem Settled.not_fed (distinct : s.Distinct) (settled : Settled s p id)
    (unresolved : p.table id = none) (source : NodeId) : ¬ s.Feeds source id := by
  rintro ⟨node, signature, known, rfl, -⟩
  exact settled.ne distinct known unresolved rfl

/-- What is found of a node stays true. -/
theorem Found.mono (advances : Advances p p')
    (kept : ∀ id, Settled s p id → p'.table id = p.table id) {r : Resolved}
    (has : p.table node.id = some r) (found : Found s p node signature r) :
    Found s p' node signature r := by
  have sameError := advances.final node.id r has
  constructor
  case known => exact found.known
  case fallback =>
    rw [sameError]
    exact found.fallback
  case clear => exact acc_clear_mono advances.toGrows found.clear
  case made =>
    rw [sameError]
    refine found.made.imp id fun ⟨provider, took, outcome⟩ => ⟨provider, ?_, outcome⟩
    exact fun input mem => (took input mem).mono advances.table
  case outcome =>
    intro acc
    have bound : s.bound p'.table node signature = s.bound p.table node signature :=
      Setting.bound_congr found.known fun source feeds => kept source (found.fed acc source feeds)
    rw [bound, sameError]
    exact found.outcome acc
  case fed => exact fun acc source feeds => (found.fed acc source feeds).mono advances.toGrows

/-- What is noted of a node stays true. -/
theorem Noted.mono (grows : Grows p p') {e : NodeError}
    (held : p.Marked id → p'.Marked id ∨ ∃ r, p'.table id = some r) (noted : Noted s p id e) :
    Noted s p' id e := by
  cases noted with
  | unknown unknown => exact .unknown unknown
  | evaluation found e => exact .evaluation (grows.table _ _ found) e
  | cycle loop place =>
    refine .cycle loop ?_
    rcases place with marked | ⟨r, found⟩
    · exact held marked
    · exact .inr ⟨r, grows.table _ _ found⟩

/-- A cycle is noted of nodes on a cycle only, which are marked or have an instance. -/
theorem Noted.loop {id other : NodeId} (noted : Noted s p id (.cycle other)) :
    other = id ∧ Relation.TransGen s.Feeds id id ∧ (p.Marked id ∨ ∃ r, p.table id = some r) := by
  generalize same : NodeError.cycle other = e at noted
  cases noted with
  | unknown unknown => cases same
  | evaluation found e => cases same
  | cycle loop held => exact ⟨NodeError.cycle.inj same, loop, held⟩

/-- A node that depends on itself has a known schema. -/
theorem known_of_loop (loop : Relation.TransGen s.Feeds id id) :
    ∃ node signature, s.Known node signature ∧ node.id = id := by
  obtain ⟨source, -, node, signature, known, same, -⟩ := Relation.TransGen.tail'_iff.mp loop
  exact ⟨node, signature, known, same⟩

namespace Finish

variable {r : Resolved} {e : Option NodeError} (finish : Finish s p node signature r e)
include finish

/-- An error that was noted stays. -/
theorem error_kept {e' : NodeError} (noted : p.error? node.id = some e') : e = some e' := by
  cases finish with
  | cycle here => rw [← here, noted]
  | bound clear outcome grounded bound took =>
    rw [clear] at noted
    cases noted

/-- A noted cycle leads to the default. -/
theorem eq_fallback (cycle : e = some (.cycle node.id)) : r = Resolve.fallback node signature := by
  cases finish with
  | cycle here => rfl
  | bound clear outcome grounded bound took => cases outcome <;> cases cycle

/-- A finished node was made from some of what its inputs take. -/
theorem made (grows : Grows p p') : e = some (.cycle node.id) ∨
    ∃ provider : InputId → Option Ty, (∀ input ∈ signature.inputs.map (·.1),
      s.Took p'.table node signature input (provider input)) ∧
    s.Outcome node signature (s.boundTo provider node signature) r e := by
  cases finish with
  | cycle here => exact .inl rfl
  | bound clear outcome grounded bound took =>
    exact .inr ⟨_, fun input mem => (took input mem).mono grows.table, bound ▸ outcome⟩

/-- Without cycles above, the equation holds. -/
theorem outcome (traced : Traced s stack p) (acc : Acc s.Feeds node.id) :
    s.Outcome node signature (s.bound p.table node signature) r e := by
  cases finish with
  | cycle here =>
    obtain ⟨-, loop, -⟩ := (traced.noted _ _ here).loop
    exact absurd loop (not_transGen_self_of_acc acc)
  | bound clear outcome grounded bound took =>
    rw [← grounded acc]
    exact outcome

/-- The errors of a finished node are noted. -/
theorem noted (traced : Traced s stack p) (found : p'.table node.id = some r) {e' : NodeError}
    (some : e = some e') : Noted s p' node.id e' := by
  subst some
  cases finish with
  | cycle here =>
    obtain ⟨-, loop, -⟩ := (traced.noted _ _ here).loop
    exact .cycle loop (.inr ⟨_, found⟩)
  | bound clear outcome grounded bound took =>
    cases outcome with
    | failed e => exact .evaluation found e

/-- Results and errors that are there stay, and finished nodes keep theirs. -/
theorem advances (distinct : s.Distinct) (known : s.Known node signature)
    (unresolved : p.table node.id = none)
    (table : p'.table = Function.update p.table node.id (some r))
    (errors : p'.error? = Function.update p.error? node.id e) : Advances p p' := by
  have differs {id : NodeId} {r' : Resolved} (found : p.table id = some r') : id ≠ node.id :=
    Settled.ne distinct known unresolved (.resolved found)
  constructor
  case toGrows =>
    constructor
    case table =>
      intro id r' found
      rw [table, update_of_ne (differs found), found]
    case errors =>
      intro id e' found
      rw [errors]
      by_cases same : id = node.id
      · subst same
        rw [update_self, finish.error_kept found]
      · rw [update_of_ne same, found]
  case final =>
    intro id r' found
    rw [errors, update_of_ne (differs found)]

end Finish

namespace Traced

/-- Nothing is found at the start. -/
theorem start (s : Setting) : Traced s [] ⟨[], []⟩ where
  marks id := by simp [Progress.Marked, valueAt?]
  found id r found := by cases found
  noted id e found := by cases found

section

variable {id : NodeId} (traced : Traced s stack p)
include traced

/-- A node without a slot is not marked. -/
theorem outside_of_free (free : valueAt? id p.slots = none) : id ∉ stack := by
  intro mem
  have marked := (traced.marks id).mpr mem
  rw [Progress.Marked, free] at marked
  cases marked

/-- Ids without a node have no instance. -/
theorem table_absent (absent : ∀ node ∈ s.graph.nodes, node.id ≠ id) : p.table id = none := by
  cases has : p.table id with
  | none => rfl
  | some r =>
    obtain ⟨node, signature, same, found⟩ := traced.found id r has
    exact absurd same (absent node found.known.1)

/-- Nothing is found for what is no node. -/
theorem absent
    (absent : ∀ node ∈ s.graph.nodes, node.id ≠ id) : p.table id = none ∧ p.error? id = none := by
  have none := traced.table_absent absent
  refine ⟨none, ?_⟩
  cases found : p.error? id with
  | none => rfl
  | some e =>
    cases traced.noted id e found with
    | unknown unknown => exact absurd rfl (absent _ unknown.1)
    | evaluation has e =>
      rw [none] at has
      cases has
    | cycle loop held =>
      obtain ⟨node, signature, known, same⟩ := known_of_loop loop
      exact absurd same (absent node known.1)

/-- A visited node that depends on no cycle is settled. -/
theorem settled_of_visited (acc : Acc s.Feeds id) (visited : Visited s p id) : Settled s p id := by
  cases visited with
  | settled settled => exact settled
  | cycle here =>
    obtain ⟨-, loop, -⟩ := (traced.noted _ _ here).loop
    exact absurd loop (not_transGen_self_of_acc acc)

/-- Marking a node is an advance. -/
theorem mark (free : valueAt? id p.slots = none) :
    Traced s (id :: stack) (p.withSlot id .inProgress) ∧
      Advances p (p.withSlot id .inProgress) := by
  have same : (p.withSlot id .inProgress).table = p.table :=
    Progress.table_withSlot_inProgress (Progress.table_eq_none_of_free free)
  have marked (other : NodeId) : (p.withSlot id .inProgress).Marked other ↔
      other = id ∨ p.Marked other := by
    rw [Progress.marked_withSlot_iff]
    by_cases eq : other = id <;> simp [eq]
  have advances : Advances p (p.withSlot id .inProgress) := by
    refine ⟨⟨fun other r found => ?_, fun other e found => found⟩, fun other r found => rfl⟩
    rw [same, found]
  refine ⟨?_, advances⟩
  constructor
  case marks =>
    intro other
    rw [marked, List.mem_cons, traced.marks]
  case found =>
    intro other r has
    rw [same] at has
    obtain ⟨node, signature, rfl, found⟩ := traced.found other r has
    exact ⟨node, signature, rfl, found.mono advances (fun id _ => by rw [same]) has⟩
  case noted =>
    intro other e has
    exact (traced.noted other e has).mono advances.toGrows
      fun held => .inl ((marked other).mpr (.inr held))

/-- Noting an error is an advance. -/
theorem note {e : NodeError} (unresolved : p.table id = none)
    (kept : ∀ e', p.error? id = some e' → e' = e) (noted : Noted s p id e) :
    Traced s stack (p.withError id e) ∧ Advances p (p.withError id e) := by
  have advances : Advances p (p.withError id e) := by
    refine ⟨⟨fun other r found => found, fun other e' found => ?_⟩, fun other r found => ?_⟩
    · rw [Progress.error?_withError]
      by_cases same : other = id
      · subst same
        rw [update_self, kept e' found]
      · rw [update_of_ne same, found]
    · have differ : other ≠ id := by
        intro same
        rw [same, unresolved] at found
        cases found
      rw [Progress.error?_withError, update_of_ne differ]
  refine ⟨?_, advances⟩
  constructor
  case marks => exact traced.marks
  case found =>
    intro other r has
    obtain ⟨node, signature, rfl, found⟩ := traced.found other r has
    exact ⟨node, signature, rfl, found.mono advances (fun id _ => rfl) has⟩
  case noted =>
    intro other e' has
    rw [Progress.error?_withError] at has
    by_cases same : other = id
    · subst same
      rw [update_self, Option.some.injEq] at has
      subst has
      exact noted.mono advances.toGrows .inl
    · rw [update_of_ne same] at has
      exact (traced.noted other e' has).mono advances.toGrows .inl

variable (distinct : s.Distinct)
include distinct

/-- Unknown nodes have no instance. -/
theorem table_unknown (unknown : s.Unknown node) : p.table node.id = none := by
  cases has : p.table node.id with
  | none => rfl
  | some r =>
    obtain ⟨other, signature, same, found⟩ := traced.found _ r has
    exact absurd same (distinct.apart found.known unknown)

/-- What is settled does not change. -/
theorem table_eq {stack' : List NodeId} (traced' : Traced s stack' p') (grows : Grows p p')
    (settled : Settled s p id) : p'.table id = p.table id := by
  cases settled with
  | resolved found => rw [found, grows.table _ _ found]
  | unknown unknown noted =>
    rw [traced.table_unknown distinct unknown, traced'.table_unknown distinct unknown]
  | absent absent => rw [traced.table_absent absent, traced'.table_absent absent]

/-- A node of a known schema has no error before it has an instance, unless it is on a cycle. -/
theorem error?_cases (known : s.Known node signature) (unresolved : p.table node.id = none) :
    p.error? node.id = none ∨ p.error? node.id = some (.cycle node.id) := by
  cases has : p.error? node.id with
  | none => exact .inl rfl
  | some e =>
    right
    have noted := traced.noted _ _ has
    generalize same : node.id = id at noted
    cases noted with
    | unknown unknown => exact absurd same (distinct.apart known unknown)
    | evaluation found e =>
      rw [same, found] at unresolved
      cases unresolved
    | cycle loop held => rfl

/-- All ways into a settled node are clear. -/
theorem acc_clear (settled : Settled s p id) : Acc (Clear s p) id := by
  cases has : p.table id with
  | some r =>
    obtain ⟨node, signature, rfl, found⟩ := traced.found id r has
    exact found.clear
  | none =>
    exact ⟨id, fun source clear => absurd clear.1 (settled.not_fed distinct has source)⟩

/-- Noting an unknown schema is an advance. -/
theorem noteUnknown (unknown : s.Unknown node) :
    Traced s stack (p.withError node.id (.unknownSchema node.schemaId)) ∧
      Advances p (p.withError node.id (.unknownSchema node.schemaId)) := by
  have unresolved := traced.table_unknown distinct unknown
  refine traced.note unresolved (fun e has => ?_) (.unknown unknown)
  have noted := traced.noted _ _ has
  generalize same : node.id = id at noted
  cases noted with
  | unknown unknown' => rw [distinct.eq unknown'.1 unknown.1 same.symm]
  | evaluation found e =>
    rw [same, found] at unresolved
    cases unresolved
  | cycle loop held =>
    obtain ⟨other, signature, known, same'⟩ := known_of_loop loop
    exact absurd (same'.trans same.symm) (distinct.apart known unknown)

/-- A marked node that depends on itself is noted to be on a cycle. -/
theorem noteCycle (mem : id ∈ stack) (loop : Relation.TransGen s.Feeds id id) :
    Traced s stack (p.withError id (.cycle id)) ∧ Advances p (p.withError id (.cycle id)) := by
  have marked := (traced.marks id).mpr mem
  have unresolved := marked.table_eq_none
  refine traced.note unresolved (fun e has => ?_) (.cycle loop (.inl marked))
  obtain ⟨node, signature, known, rfl⟩ := known_of_loop loop
  rcases traced.error?_cases distinct known unresolved with clear | noted
  · rw [clear] at has
    cases has
  · rw [noted] at has
    exact (Option.some.inj has).symm

/-- What is known of the instance of a node of a known schema. -/
theorem found_of_table (known : s.Known node signature) {r : Resolved}
    (has : p.table node.id = some r) : Found s p node signature r := by
  obtain ⟨other, signature', same, found⟩ := traced.found _ r has
  have eq := distinct.eq found.known.1 known.1 same
  subst eq
  rw [known.signature_eq found.known]
  exact found

/-- A solution agrees with what is settled of a node that depends on no cycle. -/
theorem solution_eq {table : NodeId → Option Resolved} {errors : NodeId → Option NodeError}
    (solution : s.Solution table errors) (acc : Acc s.Feeds id)
    (settled : Settled s p id) : table id = p.table id ∧ errors id = p.error? id := by
  induction acc with
  | intro id above ih =>
    cases settled with
    | resolved has =>
      obtain ⟨node, signature, rfl, found⟩ := traced.found id _ has
      have sources (source : NodeId) (feeds : s.Feeds source node.id) :
          table source = p.table source :=
        (ih source feeds (found.fed ⟨_, above⟩ source feeds)).1
      obtain ⟨r, has', outcome⟩ := solution.known node signature found.known
      rw [Setting.bound_congr found.known sources] at outcome
      obtain ⟨rfl, error⟩ := outcome.unique (found.outcome ⟨_, above⟩)
      exact ⟨has'.trans has.symm, error⟩
    | unknown unknown noted =>
      rw [traced.table_unknown distinct unknown, noted]
      exact solution.unknown _ unknown
    | absent absent =>
      obtain ⟨none, clear⟩ := traced.absent absent
      rw [none, clear]
      exact solution.absent id absent

end

/-- What is known of the instance that a node is finished with, once its sources are visited. -/
theorem found_of_finish (traced : Traced s stack p) (distinct : s.Distinct)
    (known : s.Known node signature)
    (visited : ∀ source, s.Feeds source node.id → Visited s p source) (advances : Advances p p')
    (kept : ∀ id, Settled s p id → p'.table id = p.table id) {r : Resolved}
    {e : Option NodeError} (finish : Finish s p node signature r e)
    (error : p'.error? node.id = e) : Found s p' node signature r := by
  have fed (acc : Acc s.Feeds node.id) (source : NodeId) (feeds : s.Feeds source node.id) :
      Settled s p source :=
    traced.settled_of_visited (acc.inv feeds) (visited source feeds)
  constructor
  case known => exact known
  case fallback =>
    rw [error]
    exact finish.eq_fallback
  case clear =>
    refine ⟨_, fun source way => ?_⟩
    apply acc_clear_mono advances.toGrows
    cases visited source way.1 with
    | settled settled => exact traced.acc_clear distinct settled
    | cycle noted => exact absurd (advances.errors _ _ noted) way.2
  case made =>
    rw [error]
    exact finish.made advances.toGrows
  case outcome =>
    intro acc
    have bound : s.bound p'.table node signature = s.bound p.table node signature :=
      Setting.bound_congr known fun source feeds => kept source (fed acc source feeds)
    rw [bound, error]
    exact finish.outcome traced acc
  case fed => exact fun acc source feeds => (fed acc source feeds).mono advances.toGrows

/-- A marked node all of whose sources are visited is finished. -/
theorem finish (traced : Traced s (node.id :: stack) p) (distinct : s.Distinct)
    (known : s.Known node signature) (outside : node.id ∉ stack)
    (visited : ∀ source, s.Feeds source node.id → Visited s p source) {r : Resolved}
    {e : Option NodeError} (finish : Finish s p node signature r e)
    (slots : p'.slots = (p.withSlot node.id (.resolved r)).slots)
    (errors : p'.error? = Function.update p.error? node.id e) :
    Traced s stack p' ∧ Advances p p' := by
  have unresolved : p.table node.id = none :=
    ((traced.marks node.id).mpr List.mem_cons_self).table_eq_none
  have table : p'.table = Function.update p.table node.id (some r) := by
    rw [Progress.table_congr slots, Progress.table_withSlot_resolved]
  have has : p'.table node.id = some r := by rw [table, update_self]
  have kept (id : NodeId) (settled : Settled s p id) : p'.table id = p.table id := by
    rw [table]
    exact update_of_ne (settled.ne distinct known unresolved) _ _
  have marked (id : NodeId) : p'.Marked id ↔ id ≠ node.id ∧ p.Marked id := by
    rw [Progress.marked_congr slots, Progress.marked_withSlot_iff]
    by_cases same : id = node.id <;> simp [same]
  have advances := finish.advances distinct known unresolved table errors
  refine ⟨?_, advances⟩
  constructor
  case marks =>
    intro id
    rw [marked, traced.marks, List.mem_cons]
    by_cases same : id = node.id
    · simp [same, outside]
    · simp [same]
  case found =>
    intro id r' has'
    by_cases same : id = node.id
    · subst same
      rw [has, Option.some.injEq] at has'
      subst has'
      have error : p'.error? node.id = e := by rw [errors, update_self]
      exact ⟨node, signature, rfl,
        traced.found_of_finish distinct known visited advances kept finish error⟩
    · rw [table, update_of_ne same] at has'
      obtain ⟨other, signature', rfl, found⟩ := traced.found id r' has'
      exact ⟨other, signature', rfl, found.mono advances kept has'⟩
  case noted =>
    intro id e' noted
    by_cases same : id = node.id
    · subst same
      rw [errors, update_self] at noted
      exact finish.noted traced has noted
    · rw [errors, update_of_ne same] at noted
      apply (traced.noted id e' noted).mono advances.toGrows
      exact fun held => .inl ((marked id).mpr ⟨same, held⟩)

/-- In the end every visited node of a known schema has an instance. -/
theorem exists_instance (traced : Traced s [] p) (distinct : s.Distinct)
    (known : s.Known node signature) (visited : Visited s p node.id) :
    ∃ r, p.table node.id = some r ∧ Found s p node signature r := by
  have has : ∃ r, p.table node.id = some r := by
    cases visited with
    | settled settled => exact settled.exists_instance distinct known
    | cycle noted =>
      obtain ⟨-, -, marked | has⟩ := (traced.noted _ _ noted).loop
      · exact absurd ((traced.marks node.id).mp marked) List.not_mem_nil
      · exact has
  obtain ⟨r, has⟩ := has
  exact ⟨r, has, traced.found_of_table distinct known has⟩

/-- A node of an unknown schema has its error and no instance. -/
theorem unknown_noted (traced : Traced s [] p) (distinct : s.Distinct) (unknown : s.Unknown node)
    (visited : Visited s p node.id) :
    p.table node.id = none ∧ p.error? node.id = some (.unknownSchema node.schemaId) := by
  have unresolved := traced.table_unknown distinct unknown
  refine ⟨unresolved, ?_⟩
  cases visited with
  | settled settled => exact settled.error?_eq distinct unknown unresolved
  | cycle noted =>
    obtain ⟨-, loop, -⟩ := (traced.noted _ _ noted).loop
    obtain ⟨other, signature, known, same⟩ := known_of_loop loop
    exact absurd same (distinct.apart known unknown)

end Traced

end

end TypeFlow
