import ArenaVariations.Proofs.Yaml.Token.Block

/-!
# Values are read back from their texts

A legible value that is not nested too deeply is read back from the line it is written on, and from
the document it is laid out in.
-/

namespace ArenaVariations.Yaml

theorem isAllowed_of_isPrintable {c : Char} (printable : isPrintable c = true) :
    isAllowed c = true := by
  simp only [isPrintable, Bool.decide_or, Bool.or_eq_true, decide_eq_true_eq] at printable
  simp only [isAllowed, Bool.decide_or, Bool.or_eq_true, decide_eq_true_eq]
  obtain newline | ascii | ⟨least, most, -⟩ | wide := printable
  · exact .inr (.inl newline)
  · exact .inr (.inr (.inr (.inl ascii)))
  · exact .inr (.inr (.inr (.inr (.inr (.inl ⟨least, most⟩)))))
  · exact .inr (.inr (.inr (.inr (.inr (.inr wide)))))

/-- Written texts hold no other breaks than newlines and separators. -/
theorem normalizeBreaks_eq_self {cs : List Char} (printable : ∀ c ∈ cs, isPrintable c = true) :
    normalizeBreaks cs = cs := by
  induction cs with
  | nil => rfl
  | cons c cs ih =>
    obtain ⟨first, others⟩ := List.forall_mem_cons.mp printable
    have carriage : c ≠ '\r' := by rintro rfl; revert first; decide
    have next : c ≠ nextLine := by rintro rfl; revert first; decide
    have step : normalizeBreaks (c :: cs) =
        (if c = '\r' ∨ c = nextLine then '\n' else c) :: normalizeBreaks cs := by
      rw [normalizeBreaks]
      rintro rest rfl
      exact fun _ => carriage rfl
    rw [step, ih others, if_neg (by simp [carriage, next])]

namespace Value

theorem IsTagName.isPrintable {tag : String} (name : IsTagName tag) :
    ∀ c ∈ tag.toList, Yaml.isPrintable c = true :=
  fun c mem => isPrintable_of_isSimple (by simp [isSimple, name.2 c mem])

theorem LegibleAt.isPrintable {spot : Spot} {v : Value} (legible : v.LegibleAt spot) :
    ∀ c ∈ (v.lineOf spot.isShared).toList, Yaml.isPrintable c = true :=
  legible.form.printable

theorem LegibleIn.isPrintable_flow {mode : Mode} {v : Value} (legible : v.LegibleIn mode)
    (onLine : mode.OnLine v) : ∀ c ∈ v.flow.toList, Yaml.isPrintable c = true := by
  induction legible with
  | scalar legible =>
    have printable := legible.isPrintable
    rw [Mode.isShared_value] at printable
    rw [flow_of_isScalar legible.isScalar]
    exact printable
  | @sequence mode items _ ih =>
    rw [toList_flow_sequence]
    simp only [List.mem_cons, List.mem_append, List.not_mem_nil, or_false]
    rintro c (rfl | mem | rfl)
    · rfl
    · obtain mem | ⟨part, among, mem⟩ := mem_of_mem_intercalate mem
      · obtain rfl | rfl := by simpa using mem
        all_goals rfl
      · obtain ⟨v, item, rfl⟩ := List.mem_map.mp among
        exact ih v item (onLine.items_eq ▸ Mode.onLine_brackets v) c mem
    · rfl
  | @mapping mode entries keys _ _ ih =>
    rw [toList_flow_mapping]
    simp only [List.mem_cons, List.mem_append, List.not_mem_nil, or_false]
    rintro c (rfl | mem | rfl)
    · rfl
    · obtain mem | ⟨part, among, mem⟩ := mem_of_mem_intercalate mem
      · obtain rfl | rfl := by simpa using mem
        all_goals rfl
      · obtain ⟨e, entry, rfl⟩ := List.mem_map.mp among
        simp only [List.mem_append, List.mem_cons] at mem
        have key : e.1.LegibleAt Mode.brackets.key := onLine.entries_eq ▸ keys e entry
        obtain mem | rfl | rfl | mem := mem
        · exact key.isPrintable c mem
        · rfl
        · rfl
        · exact ih e entry (onLine.entries_eq ▸ Mode.onLine_brackets _) c mem
    · rfl
  | tagged name _ _ ih =>
    rw [toList_flow_tagged]
    simp only [List.mem_cons, List.mem_append, List.cons_append]
    rintro c (rfl | mem | rfl | mem)
    · rfl
    · exact name.isPrintable c mem
    · rfl
    · exact ih onLine.below c mem

theorem isPrintable_margin (indent : Nat) :
    ∀ c ∈ Layout.margin indent, Yaml.isPrintable c = true := by
  intro c mem
  rw [List.eq_of_mem_replicate mem]
  rfl

theorem isPrintable_gap (indent : Nat) (l : Layout) :
    ∀ c ∈ l.gap indent, Yaml.isPrintable c = true := by
  intro c mem
  rw [Layout.gap] at mem
  split at mem
  · obtain rfl | mem := List.mem_cons.mp mem
    · rfl
    · exact isPrintable_margin _ c mem
  · rw [List.mem_singleton.mp mem]
    rfl

theorem isPrintable_renderAfter_of_line {v : Value} (legible : v.LegibleIn .lines) {text : String}
    (line : v.layout = .line text) (indent : Nat) :
    ∀ c ∈ v.layout.renderAfter indent, Yaml.isPrintable c = true := by
  rw [line, eq_flow_of_layout line, Layout.renderAfter]
  intro c mem
  obtain mem | mem := List.mem_append.mp mem
  · exact legible.isPrintable_flow (fun _ => ⟨text, line⟩) c mem
  · rw [List.mem_singleton.mp mem]
    rfl

theorem LegibleIn.isPrintable_renderAfter {mode : Mode} {v : Value} (legible : v.LegibleIn mode)
    (lines : mode = .lines) (indent : Nat) :
    ∀ c ∈ v.layout.renderAfter indent, Yaml.isPrintable c = true := by
  induction legible generalizing indent with
  | scalar legible =>
    exact isPrintable_renderAfter_of_line (lines ▸ .scalar legible)
      (layout_of_isScalar legible.isScalar) _
  | @sequence mode items each ih =>
    subst lines
    cases leaves : items.all isLeaf with
    | true =>
      exact isPrintable_renderAfter_of_line (.sequence each) (layout_sequence_of_all leaves) _
    | false =>
      rw [layout_sequence leaves, Layout.renderAfter, Layout.renderBody, renderItems_layout]
      intro c mem
      obtain ⟨v, item, mem⟩ := List.mem_flatMap.mp (List.mem_of_mem_drop mem)
      simp only [itemText, List.mem_append, List.mem_cons] at mem
      obtain mem | rfl | rfl | mem := mem
      · exact isPrintable_margin _ c mem
      · rfl
      · rfl
      · exact ih v item (Mode.items_lines leaves) _ c mem
  | @mapping mode entries keys distinct values ih =>
    subst lines
    cases entries with
    | nil => exact isPrintable_renderAfter_of_line (.mapping keys distinct values) rfl _
    | cons e entries =>
      have filled : e :: entries ≠ [] := List.cons_ne_nil _ _
      have below := Mode.entries_lines filled
      rw [layout_mapping filled, Layout.renderAfter, Layout.renderBody,
        renderEntries_layout _ (below ▸ values)]
      intro c mem
      obtain ⟨e, entry, mem⟩ := List.mem_flatMap.mp (List.mem_of_mem_drop mem)
      simp only [entryText, List.mem_append, List.mem_cons] at mem
      have key : e.1.LegibleAt Mode.lines.key := below ▸ keys e entry
      obtain mem | mem | rfl | mem | mem := mem
      · exact isPrintable_margin _ c mem
      · exact key.isPrintable c mem
      · rfl
      · exact isPrintable_gap _ _ c mem
      · exact ih e entry below _ c mem
  | @tagged mode tag name v untagged inner ih =>
    subst lines
    have legible := LegibleIn.tagged name untagged inner
    cases inline : isInlineTag tag with
    | true =>
      exact isPrintable_renderAfter_of_line legible (layout_tagged_of_isInlineTag inline v) _
    | false =>
      have under := layout_tagged inline v
      have below := Mode.below_lines inline
      obtain ⟨text, line⟩ | block := layout_of_untagged untagged
      · exact isPrintable_renderAfter_of_line legible (by rw [under, line]; rfl) _
      · have starts := LegibleIn.starts (below ▸ inner) block indent
        rw [under, Layout.renderAfter_under tag block, starts.body]
        simp only [List.mem_append, List.mem_cons, List.cons_append]
        rintro c (rfl | mem | rfl | mem | mem)
        · rfl
        · exact name.isPrintable c mem
        · rfl
        · exact isPrintable_margin _ c mem
        · exact ih below indent c mem

end Value

namespace TokenState

/-- The tokens of a text that is read to its end. -/
theorem Reaches.run_eq {s t : TokenState} (h : s.Reaches t) (done : t.place.rest = [])
    (outside : t.outerKeys = []) (optional : ∀ k ∈ t.key, k.required = false) :
    run (s.place.rest.length + 1) s =
      some (t.closeBlocks (-1) t.outerIndents).tokens.reverse := by
  obtain ⟨n, before, ran⟩ := h
  obtain ⟨fuel, enough⟩ := Nat.exists_eq_add_of_le (m := n) (n := s.place.rest.length) (by omega)
  rw [enough, Nat.add_assoc, ran, run_end done outside optional]

end TokenState

/-- A text of printable characters is cut into the tokens that its characters reach. -/
theorem Token.ofChars?_of_reaches {cs : List Char} (printable : ∀ c ∈ cs, isPrintable c = true)
    {line : Nat} {tokens : List Token} (reaches : (TokenState.start ⟨cs, .start⟩).Reaches
      (((TokenState.start ⟨cs, .start⟩).emits tokens).freshLine line 0 [])) :
    Token.ofChars? cs = some tokens := by
  have allowed : cs.all isAllowed = true :=
    List.all_eq_true.mpr fun c mem => isAllowed_of_isPrintable (printable c mem)
  have read := reaches.run_eq rfl rfl nofun
  rw [Token.ofChars?, if_pos allowed, normalizeBreaks_eq_self printable]
  refine read.trans ?_
  simp [TokenState.freshLine, TokenState.emits, TokenState.start, TokenState.closeBlocks]

namespace TokenState

theorem ready_start (cs : List Char) : (start ⟨cs, .start⟩).Ready :=
  ⟨⟨nofun, nofun⟩, fun _ => Int.negSucc_lt_zero 0⟩

end TokenState

namespace Value

/-- A value is read back from the line it is written on. -/
theorem LegibleIn.ofChars?_flow {v : Value} (legible : v.LegibleIn .line)
    (shallow : v.nesting ≤ Tree.depthLimit) : ofChars? v.flow.toList = some v := by
  have onLine : Mode.line.OnLine v := nofun
  obtain ⟨line, tokens, spelled, reaches⟩ := (TokenState.ready_start v.flow.toList).valueEnd rfl
    legible nofun onLine (List.append_nil _).symm .done
  exact ofChars?_of_spelled
    (Token.ofChars?_of_reaches (legible.isPrintable_flow onLine) reaches) spelled legible shallow

/-- A value is read back from the document it is laid out in. -/
theorem LegibleIn.ofChars?_layout {v : Value} (legible : v.LegibleIn .lines)
    (shallow : v.nesting ≤ Tree.depthLimit) : ofChars? v.layout.render.toList = some v := by
  rw [Layout.render_eq, String.toList_ofList]
  obtain ⟨line, tokens, spelled, reaches⟩ := TokenState.readsBelow legible rfl 0
    (TokenState.ready_start (v.layout.renderAfter 0)) rfl (Int.negSucc_lt_zero 0)
    (fun _ => ⟨rfl, rfl⟩)
    (List.append_nil _).symm .done
  exact ofChars?_of_spelled
    (Token.ofChars?_of_reaches (legible.isPrintable_renderAfter rfl 0) reaches) spelled legible
    shallow

theorem Legible.ofChars?_flow {v : Value} (legible : v.Legible)
    (shallow : v.nesting ≤ Tree.depthLimit) : ofChars? v.flow.toList = some v :=
  LegibleIn.ofChars?_flow (legible .line) shallow

theorem Legible.ofChars?_layout {v : Value} (legible : v.Legible)
    (shallow : v.nesting ≤ Tree.depthLimit) : ofChars? v.layout.render.toList = some v :=
  LegibleIn.ofChars?_layout (legible .lines) shallow

end Value

end ArenaVariations.Yaml
