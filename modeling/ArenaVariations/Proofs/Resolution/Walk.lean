import ArenaVariations.Proofs.Node.Waiting

/-!
# Walks along references

A reference is walked from a record down, and the walk waits when it comes to a placeholder: it
needs the value of the placeholder to go on. No other placeholder matters to it, for the value is
static. So what a reference finds depends on the tree, and on the one conditional that its walk
waits for.
-/

namespace ArenaVariations

/-- A scalar that is no double is equal to itself only. -/
theorem Scalar.beq_iff_eq_of_ne_float {k m : Scalar} (other : ∀ z, m ≠ float z) :
    (k == m) = true ↔ k = m := by
  change k.beq m = true ↔ k = m
  cases m with
  | float z => exact absurd rfl (other z)
  | null | bool | int | text => cases k <;> simp [beq]

namespace Node

/-- The conditional that a walk along segments waits for, that of the first placeholder that it
comes to. -/
def awaited? (n : Node) : List String → Option (Conditional Node)
  | [] => none
  | segment :: rest =>
    match n.step? segment with
    | none => none
    | some (placeholder source) => some source
    | some next => next.awaited? rest

/-- The record that a reference starts from. -/
def origin? (root : Node) (reference : String) : Option Node :=
  root.findRecord? ((Reference.segments reference).headD "")

/-- The conditional that a reference waits for. -/
def awaitedBy? (root : Node) (reference : String) : Option (Conditional Node) :=
  (root.origin? reference).bind fun start => start.awaited? (Reference.segments reference).tail

/-- The value that a reference leads to when placeholders are left as they are. -/
def target? (root : Node) (reference : String) : Option Node :=
  (root.origin? reference).bind fun start => (Reference.segments reference).tail.foldlM step? start

/-- Deciding a conditional in a tree waits for another one. -/
def Awaits (root : Node) (c d : Conditional Node) : Prop :=
  ∃ reference ∈ c.condition.references, root.awaitedBy? reference = some d

theorem exists_mem_of_lookup {κ : Type} {addresses : List κ} {children : List Node}
    {matching : κ → Bool} {n : Node} (h : lookup addresses children matching = some n) :
    ∃ address, matching address = true ∧ (address, n) ∈ addresses.zip children := by
  obtain ⟨⟨address, m⟩, found, rfl⟩ := Option.map_eq_some_iff.mp h
  exact ⟨address, List.find?_some (p := fun entry : κ × Node => matching entry.1) found,
    List.mem_of_find?_eq_some found⟩

theorem mem_of_lookup_eq_some {κ : Type} {addresses : List κ} {children : List Node}
    {matching : κ → Bool} {n : Node} (h : lookup addresses children matching = some n) :
    n ∈ children := by
  obtain ⟨address, -, mem⟩ := exists_mem_of_lookup h
  exact (List.of_mem_zip mem).2

/-- A child is looked up under its address, if no other address matches. -/
theorem lookup_eq_some_of_mem {κ : Type} {addresses : List κ} {children : List Node}
    {matching : κ → Bool} {address : κ} {n : Node}
    (single : addresses.Pairwise fun k l => ¬ (matching k = true ∧ matching l = true))
    (mem : (address, n) ∈ addresses.zip children) (here : matching address = true) :
    lookup addresses children matching = some n := by
  induction addresses generalizing children with
  | nil => cases mem
  | cons first addresses ih =>
    cases children with
    | nil => cases mem
    | cons child children =>
      obtain ⟨alone, single⟩ := List.pairwise_cons.mp single
      rw [lookup, List.zip_cons_cons, List.find?_cons]
      obtain same | inner := List.mem_cons.mp mem
      · obtain ⟨rfl, rfl⟩ := Prod.mk.inj same
        rw [here]
        rfl
      · have other : matching first = false := by
          rw [← Bool.not_eq_true]
          exact fun found => alone address (List.of_mem_zip inner).1 ⟨found, here⟩
        rw [other]
        exact ih single inner

/-- The value under a name that occurs once. -/
theorem lookup_of_mem {names : List String} {children : List Node} (distinct : names.Nodup)
    {field : String × Node} (mem : field ∈ names.zip children) :
    lookup names children (· == field.1) = some field.2 :=
  lookup_eq_some_of_mem
    (distinct.imp fun ne both => ne ((eq_of_beq both.1).trans (eq_of_beq both.2).symm)) mem
    (beq_self_eq_true field.1)

theorem valueAt?_mapping (keys : List Scalar) (children : List Node) (key : Scalar) :
    (container (.mapping keys) children).valueAt? key = lookup keys children (· == key) :=
  rfl

theorem field?_record (kind : RecordKind) (id : Option String) (names : List String)
    (children : List Node) (name : String) :
    (container (.record kind id names) children).field? name =
      lookup names children (· == name) :=
  rfl

/-- A step leads to a child of a container or to a bound of a range. -/
theorem step?_eq_some {n next : Node} {segment : String} (h : n.step? segment = some next) :
    (∃ form children, n = container form children ∧ next ∈ children) ∨
      ∃ value, next = scalar value := by
  unfold step? at h
  split at h
  case h_1 => exact .inl ⟨_, _, rfl, List.mem_of_getElem? h⟩
  case h_2 =>
    split at h
    case isTrue =>
      rw [valueAt?_mapping] at h
      exact .inl ⟨_, _, rfl, mem_of_lookup_eq_some h⟩
    case isFalse => cases h
  case h_3 => exact .inr ⟨_, (Option.some.inj h).symm⟩
  case h_4 => exact .inr ⟨_, (Option.some.inj h).symm⟩
  case h_5 =>
    rw [valueNamed?, valueAt?_mapping] at h
    exact .inl ⟨_, _, rfl, mem_of_lookup_eq_some h⟩
  case h_6 =>
    rw [field?_record] at h
    exact .inl ⟨_, _, rfl, mem_of_lookup_eq_some h⟩
  case h_7 => cases h

/-- What waits behind a step waits in the tree that it is made in. -/
theorem waiting_subset_of_step? {n next : Node} {segment : String}
    (h : n.step? segment = some next) : next.waiting ⊆ n.waiting := by
  obtain ⟨form, children, rfl, mem⟩ | ⟨value, rfl⟩ := step?_eq_some h
  · exact Within.waiting_subset (.child mem .whole)
  · exact List.nil_subset _

/-- What a walk can come to behind a step it can come to in the tree that the step is made in. -/
theorem serials_subset_of_step? {n next : Node} {segment : String}
    (h : n.step? segment = some next) : next.serials ⊆ n.serials := by
  obtain ⟨form, children, rfl, mem⟩ | ⟨value, rfl⟩ := step?_eq_some h
  · exact Within.serials_subset (.child mem .whole)
  · exact List.nil_subset _

/-- A walk waits for something that waits in the tree. -/
theorem mem_waiting_of_awaited? {n : Node} {segments : List String} {c : Conditional Node}
    (h : n.awaited? segments = some c) : c ∈ n.waiting := by
  induction segments generalizing n with
  | nil => cases h
  | cons segment rest ih =>
    unfold awaited? at h
    split at h
    case h_1 => cases h
    case h_2 source step =>
      obtain rfl := Option.some.inj h
      exact waiting_subset_of_step? step (by simp [waiting])
    case h_3 next _ step => exact waiting_subset_of_step? step (ih h)

/-- A walk goes on from where a step leads, unless that is a placeholder. -/
theorem awaited?_cons {n next : Node} {segment : String} (step : n.step? segment = some next)
    (other : ∀ source, next ≠ placeholder source) (rest : List String) :
    n.awaited? (segment :: rest) = next.awaited? rest := by
  rw [awaited?, step]
  cases next with
  | placeholder source => exact absurd rfl (other source)
  | _ => rfl

theorem walk?_cons {force : Conditional Node → Except Error Node} {n next : Node}
    {segment : String} (step : n.step? segment = some next)
    (other : ∀ source, next ≠ placeholder source) (rest : List String) :
    n.walk? force (segment :: rest) = next.walk? force rest := by
  rw [walk?, step]
  cases next with
  | placeholder source => exact absurd rfl (other source)
  | _ => rfl

theorem awaited?_eq_none {n : Node} (bare : n.waiting = []) (segments : List String) :
    n.awaited? segments = none := by
  rw [Option.eq_none_iff_forall_ne_some]
  intro c h
  exact List.not_mem_nil (bare ▸ mem_waiting_of_awaited? h)

theorem findRecordIn?_eq_some {id : String} {ns : List Node} {found : Node}
    (h : findRecordIn? id ns = some found) : ∃ n ∈ ns, n.findRecord? id = some found := by
  induction ns with
  | nil => cases h
  | cons n ns ih =>
    obtain first | ⟨-, later⟩ := Option.or_eq_some_iff.mp h
    · exact ⟨n, List.mem_cons_self, first⟩
    · obtain ⟨m, mem, found⟩ := ih later
      exact ⟨m, List.mem_cons_of_mem n mem, found⟩

/-- What is found is a record with the id within the tree. -/
theorem findRecord?_eq_some {id : String} {n found : Node} (h : n.findRecord? id = some found) :
    (∃ kind names children, found = .container (.record kind (some id) names) children) ∧
      found.Within n := by
  induction n using container_induction with
  | leaf n other =>
    cases n with
    | container form children => exact absurd rfl (other form children)
    | _ => cases h
  | container form children ih =>
    have deeper : findRecordIn? id children = some found →
        (∃ kind names fields, found = .container (.record kind (some id) names) fields) ∧
          found.Within (container form children) := by
      intro h
      obtain ⟨n, mem, found⟩ := findRecordIn?_eq_some h
      obtain ⟨record, within⟩ := ih n mem found
      exact ⟨record, .child mem within⟩
    cases form with
    | sequence => exact deeper h
    | mapping keys => exact deeper h
    | record kind own names =>
      simp only [findRecord?] at h
      split at h
      case isTrue same =>
        obtain rfl := Option.some.inj h
        exact ⟨⟨kind, names, children, by rw [same]⟩, .whole⟩
      case isFalse => exact deeper h

/-- A reference waits for something that waits in the tree. -/
theorem mem_waiting_of_awaitedBy? {root : Node} {reference : String} {c : Conditional Node}
    (h : root.awaitedBy? reference = some c) : c ∈ root.waiting := by
  obtain ⟨start, found, awaited⟩ := Option.bind_eq_some_iff.mp h
  exact (findRecord?_eq_some found).2.waiting_subset (mem_waiting_of_awaited? awaited)

theorem Awaits.mem_waiting {root : Node} {c d : Conditional Node} (h : root.Awaits c d) :
    d ∈ root.waiting := by
  obtain ⟨reference, -, awaited⟩ := h
  exact mem_waiting_of_awaitedBy? awaited

section Force

variable {force force' : Conditional Node → Except Error Node}

/-- A walk depends on how the conditional that it waits for is decided, and on nothing else about
how conditionals are decided. -/
theorem walk?_congr {n : Node} {segments : List String}
    (same : ∀ c, n.awaited? segments = some c →
      force' c = force c ∧ ∀ value, force c = .ok value → value.waiting = []) :
    n.walk? force' segments = n.walk? force segments := by
  induction segments generalizing n with
  | nil => rfl
  | cons segment rest ih =>
    simp only [walk?]
    simp only [awaited?] at same
    split
    case h_1 => rfl
    case h_2 source step =>
      simp only [step] at same
      obtain ⟨same, bare⟩ := same source rfl
      rw [same]
      apply bind_congr_ok
      intro value decided
      apply ih
      intro c awaited
      rw [awaited?_eq_none (bare value decided)] at awaited
      cases awaited
    case h_3 next other step =>
      simp only [step] at same
      exact ih same

/-- A walk in a tree where nothing waits decides nothing. -/
theorem walk?_of_bare {n : Node} (bare : n.waiting = []) (segments : List String) :
    n.walk? force' segments = n.walk? force segments := by
  apply walk?_congr
  intro c awaited
  rw [awaited?_eq_none bare] at awaited
  cases awaited

/-- The conditional that a walk waits for is decided if the walk succeeds. -/
theorem exists_forced_of_walk? {n : Node} {segments : List String} {found : Option Node}
    (walked : n.walk? force segments = .ok found) {c : Conditional Node}
    (awaited : n.awaited? segments = some c) : ∃ value, force c = .ok value := by
  induction segments generalizing n with
  | nil => cases awaited
  | cons segment rest ih =>
    simp only [walk?] at walked
    simp only [awaited?] at awaited
    split at walked
    case h_1 step =>
      simp only [step] at awaited
      cases awaited
    case h_2 source step =>
      simp only [step] at awaited
      obtain rfl := Option.some.inj awaited
      obtain ⟨value, forced, -⟩ := bind_eq_ok.mp walked
      exact ⟨value, forced⟩
    case h_3 next other step =>
      simp only [step] at awaited
      exact ih walked awaited

/-- What a reference finds is found by a walk from its record. -/
theorem resolveReference_eq (root : Node) (force : Conditional Node → Except Error Node)
    (reference : String) :
    root.resolveReference force reference =
      match root.origin? reference with
      | none =>
        .error (.unresolved (.unknownId ((Reference.segments reference).headD "") reference) none)
      | some start => (do
        match ← start.walk? force (Reference.segments reference).tail with
        | none =>
          .error (.unresolved
            (.noSuchValue reference ((Reference.segments reference).headD "")) none)
        | some value => .ok value) := by
  simp only [resolveReference, origin?]
  cases root.findRecord? ((Reference.segments reference).headD "") with
  | none => rfl
  | some start =>
    apply bind_congr_ok
    intro found _
    cases found <;> rfl

theorem resolveReference_congr {root : Node} {reference : String}
    (same : ∀ c, root.awaitedBy? reference = some c →
      force' c = force c ∧ ∀ value, force c = .ok value → value.waiting = []) :
    root.resolveReference force' reference = root.resolveReference force reference := by
  simp only [resolveReference_eq]
  simp only [awaitedBy?] at same
  cases found : root.origin? reference with
  | none => rfl
  | some start =>
    simp only [found, Option.bind_some] at same
    simp only [walk?_congr same]

theorem exists_forced_of_resolveReference {root : Node} {reference : String} {value : Node}
    (resolved : root.resolveReference force reference = .ok value) {c : Conditional Node}
    (awaited : root.awaitedBy? reference = some c) : ∃ value, force c = .ok value := by
  obtain ⟨start, found, awaited⟩ := Option.bind_eq_some_iff.mp awaited
  simp only [resolveReference_eq, found] at resolved
  obtain ⟨_, walked, -⟩ := bind_eq_ok.mp resolved
  exact exists_forced_of_walk? walked awaited

end Force

end Node

end ArenaVariations
