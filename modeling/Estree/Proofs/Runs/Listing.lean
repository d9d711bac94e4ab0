import Estree.Proofs.Grammar.Commas
import Estree.Proofs.Runs.Fold

/-!
# Lists with blank slots

Between the commas of a list there may be accepted texts, and blanks in their place. Whether the
list is accepted, and as which tree, depends on what it stands in:

* in brackets a blank slot is a hole, but for the last slot;
* among the arguments of a call there may be one at the end;
* alone or in parentheses there may be none.

> `parseWithin_listing`: the list is accepted exactly if it admits the blank slots that it has, with
> the tree of the others, and otherwise something is expected in place of the first one that there
> may not be.

What is the same everywhere comes first: the slots are read one by one up to what ends the list
(`Listing.exists_readsSlots`), whether they are filled or not. What the four productions make of
slots that have been read is one lemma each for the tree (`readsToEnd_array`, …) and one for the
refusal (`refuses_call`, …), and the main result puts them together by cases.
-/

namespace Estree

open Text Grammar

/-! ## Texts -/

/-- What stands between two commas of a list: an accepted text, or blanks in its place. -/
inductive Slot where
  | blank (gap : Gap)
  | filled (argument : Argument)

namespace Slot

def isBlank : Slot → Bool
  | blank _ => true
  | filled _ => false

/-- Whether none of several slots is blank. -/
def allFilled (slots : List Slot) : Bool := slots.all fun slot => !slot.isBlank

def text : Slot → List Char
  | blank gap => gap.text
  | filled argument => argument.source.toList

/-- The tree of a slot that begins at an offset. A blank one has none. -/
def tree? (offset : Nat) : Slot → Option Expr
  | blank _ => none
  | filled argument => some (argument.tree.movedBy offset)

/-- The texts with commas between them. -/
def joined : List Slot → List Char
  | [] => []
  | [last] => last.text
  | slot :: others => slot.text ++ ',' :: joined others

/-- The trees of slots, of which the first one begins at an offset. -/
def trees (offset : Nat) : List Slot → List (Option Expr)
  | [] => []
  | slot :: others => slot.tree? offset :: trees (offset + utf8Size slot.text + 1) others

end Slot

/-- What a list stands in: brackets, the arguments of a call, nothing, or parentheses. -/
inductive Listing where
  | array
  | call
  | bare
  | group

namespace Listing

def opening : Listing → List Char
  | array => ['[']
  | call => ['f', '(']
  | bare => []
  | group => ['(']

def closing : Listing → List Char
  | array => [']']
  | call | group => [')']
  | bare => []

def text (listing : Listing) (slots : List Slot) : List Char :=
  listing.opening ++ (Slot.joined slots ++ listing.closing)

def source (listing : Listing) (slots : List Slot) : String := String.ofList (listing.text slots)

/-- Whether blank slots may be where they are: anywhere, at the end, or nowhere. -/
def admits : Listing → List Slot → Bool
  | array, _ => true
  | call, slots => Slot.allFilled slots.dropLast
  | bare, slots | group, slots => Slot.allFilled slots

/-- The tree of the list. One tree alone or in parentheses is no sequence. -/
def tree? (listing : Listing) (slots : List Slot) : Option Expr :=
  let span : Span := ⟨0, utf8Size (listing.text slots)⟩
  let trees := Slot.trees (utf8Size listing.opening) slots
  match listing with
  | array => some (.array span (withoutLastHole trees))
  | call => some (.call span (.identifier ⟨0, 1⟩ "f") trees.reduceOption false)
  | bare => sequenceNode? none trees.reduceOption
  | group => sequenceNode? (some span) trees.reduceOption

/-- What is expected in place of the first blank slot that there may not be. -/
def expected : Listing → List Slot → Expected
  | array, _ | call, _ => .elementBeforeComma
  | bare, [_] => .expression
  | group, [_] => .expressionWithinParen
  | bare, slots => expectedInSequence (Slot.trees 0 slots)
  | group, slots => expectedInSequence (Slot.trees 1 slots)

end Listing

namespace Slot

variable {slots : List Slot} {offset : Nat}

/-- A slot has no tree exactly if it is blank. -/
theorem tree?_eq_none_iff {slot : Slot} : slot.tree? offset = none ↔ slot.isBlank = true := by
  cases slot <;> simp [tree?, isBlank]

/-- A tree is missing exactly if some slot is blank. -/
theorem none_mem_trees : none ∈ trees offset slots ↔ allFilled slots = false := by
  induction slots generalizing offset with
  | nil => simp [trees, allFilled]
  | cons slot others ih =>
    rw [trees, List.mem_cons, ih, eq_comm, tree?_eq_none_iff]
    simp [allFilled, Decidable.imp_iff_not_or]

theorem none_not_mem_trees : none ∉ trees offset slots ↔ allFilled slots = true := by
  rw [none_mem_trees, Bool.not_eq_false]

/-- The last tree is that of the last slot. -/
theorem dropLast_trees : (trees offset slots).dropLast = trees offset slots.dropLast := by
  induction slots generalizing offset with
  | nil => rfl
  | cons slot others ih =>
    cases others with
    | nil => rfl
    | cons second others => exact congrArg (slot.tree? offset :: ·) ih

end Slot

/-! ## Reading -/

section Reading

variable {depth : Nat} {c d d' : Cursor} {slots : List Slot}

/-- Where a slot ends, it has been read as its tree or as none. -/
theorem Slot.reads_expression (slot : Slot) (hd : d.Passes slot.text d')
    (hcloses : ∀ x ∈ d'.rest.head?, x ∈ closers false) (hdepth : 4 * d.rest.length + 4 ≤ depth) :
    ∃ d₁, Derives depth .expression d (slot.tree? d.position) d₁ ∧ d₁.pastBlanks = d' := by
  cases slot with
  | blank gap =>
    have hpast : d.pastBlanks = d' := pastBlanks_of_passes hd gap.blank fun x hx =>
      isBlank_of_mem_closers (hcloses x hx)
    have hnone := Source.derives_noExpression (hpast ▸ hcloses) (show 4 ≤ depth by omega)
    exact ⟨_, hnone, d.pastBlanks_pastBlanks.trans hpast⟩
  | filled argument => exact argument.reads_expression hd hcloses hdepth

/-- Slots are read one after the other. -/
theorem Slot.readsSlots (hne : slots ≠ []) (hd : d.Passes (joined slots) d')
    (hcloses : ∀ x ∈ d'.rest.head?, x ∈ closers true) (hdepth : 4 * d.rest.length + 4 ≤ depth) :
    ReadsSlots depth d (trees d.position slots) d' := by
  induction slots generalizing d with
  | nil => exact absurd rfl hne
  | cons slot others ih =>
    cases others with
    | nil =>
      obtain ⟨d₁, hderives, rfl⟩ := slot.reads_expression hd
        (fun x hx => closers_subset true (hcloses x hx)) hdepth
      exact .last hderives fun hcomma => absurd (hcloses _ hcomma) (by decide)
    | cons second others =>
      -- Behind the slot there is a comma, and behind the comma there are the other ones.
      obtain ⟨hslot, hothers⟩ := hd.split
      obtain ⟨hcomma, hothers⟩ := hothers.split_cons
      have hhead := hcomma.head?_rest
      obtain ⟨d₁, hderives, hd₁⟩ := slot.reads_expression hslot (by simp [hhead, closers]) hdepth
      have hread := ih (List.cons_ne_nil _ _) hothers (levels_passes (hslot.trans hcomma) hdepth)
      rw [hcomma.position_eq, hslot.position_eq] at hread
      exact .more hderives (hd₁ ▸ hhead) (hd₁ ▸ hread)

/-- At the start of a text there is the opening of a list, then its slots, and what closes it. -/
theorem Listing.exists_readsSlots (listing : Listing) (hne : slots ≠ []) :
    let c := Cursor.ofString (listing.source slots)
    ∃ d d' e, c.Passes listing.opening d ∧ d'.Passes listing.closing e ∧ e.rest = [] ∧
      e.position = utf8Size (listing.text slots) ∧
      ∀ depth, 4 * d.rest.length + 4 ≤ depth →
        ReadsSlots depth d (Slot.trees (utf8Size listing.opening) slots) d' := by
  intro c
  obtain ⟨d, e, hopening, hslots, hend⟩ : ∃ d e, c.Passes _ d ∧ _ :=
    Cursor.exists_passes_ofList listing.opening (Slot.joined slots ++ listing.closing)
  have hsize := (hopening.trans hslots).position_eq
  rw [show c.position = 0 from rfl, Nat.zero_add] at hsize
  obtain ⟨hslots, hclosing⟩ := hslots.split
  generalize d.skip _ = d' at hslots hclosing
  have hcloses : ∀ x ∈ d'.rest.head?, x ∈ closers true := by
    rw [hclosing.rest_eq, hend, List.append_nil]
    cases listing <;> simp [closing, closers]
  refine ⟨d, d', e, hopening, hclosing, hend, hsize, fun depth hdepth => ?_⟩
  have hread := Slot.readsSlots hne hslots hcloses hdepth
  rwa [hopening.position_eq, show c.position = 0 from rfl, Nat.zero_add] at hread

variable {e : Cursor} {trees : List (Option Expr)} {tree : Expr}

/-- Blanks before the first slot make no difference. -/
theorem Grammar.ReadsSlots.pastBlanks (h : ReadsSlots depth c trees d) :
    ReadsSlots depth c.pastBlanks trees d := by
  cases h with
  | last he hcomma => exact .last ((derives_pastBlanks_iff (p := .expression) trivial).2 he) hcomma
  | more he hcomma hothers =>
    exact .more ((derives_pastBlanks_iff (p := .expression) trivial).2 he) hcomma hothers

/-- A bracket that is passed is found at the cursor. -/
theorem Cursor.Passes.bracket {x : Char} (h : c.Passes [x] d) (hx : isBlank x = false) :
    c.pastBlanks = c ∧ c.rest.head? = some x ∧ d = c.skip 1 :=
  ⟨Cursor.pastBlanks_of_cons h.rest_eq hx, h.head?_rest, h.eq_skip⟩

namespace Listing

/-! ## What is read -/

/-- In brackets the slots are the elements, without a hole at the end. -/
theorem readsToEnd_array (hc : c.Passes ['['] d) (h : ReadsSlots depth d trees d')
    (hclose : d'.Passes [']'] e) (hend : e.rest = []) :
    ReadsToEnd c (.array ⟨c.position, e.position⟩ (withoutLastHole trees)) := by
  have hop : Token.unaryOperator? c.rest = none := by
    rw [hc.rest_eq]
    rfl
  obtain ⟨-, hopen, rfl⟩ := hc.bracket (by decide)
  obtain ⟨-, hbracket, rfl⟩ := hclose.bracket (by decide)
  have hprimary := Derives.primary (.arrayLiteral hopen (.array h.elements hbracket))
  exact (readsToEnd_primary hprimary (.of_rest hend) hop).readsToEnd

/-- The callee of a call is read, and its parenthesis is found. -/
theorem exists_callee (hc : c.Passes ['f', '('] d) : ∃ c₁,
    Derives (depth + 1) .primary c (some (.identifier ⟨c.position, c.position + 1⟩ "f")) c₁ ∧
    Token.access? c₁.pastBlanks.rest = none ∧ c₁.pastBlanks.rest.head? = some '(' ∧
    c₁.pastBlanks.skip 1 = d ∧ c.pastBlanks = c ∧ Token.unaryOperator? c.rest = none := by
  obtain ⟨hname, hparen⟩ := @Cursor.Passes.split c d "f".toList ['('] hc
  generalize c.skip "f".toList.length = c₁ at hname hparen
  have hpast : c₁.pastBlanks = c₁ := Cursor.pastBlanks_of_cons hparen.rest_eq (by decide)
  have hhead : c₁.pastBlanks.rest.head? = some '(' := hpast.symm ▸ hparen.head?_rest
  have hisName : IsName "f" := ⟨'f', [], rfl, by decide, nofun⟩
  have hends : ∀ x ∈ c₁.rest.head?, isIdentifierPart x = false := by
    intro x hx
    obtain rfl := Option.some.inj (hx.symm.trans hparen.head?_rest)
    decide
  have hcallee : Derives (depth + 1) .primary c _ c₁ :=
    Source.derives_word hisName (by decide) hname hends
  rw [Leaf.ofWord_eq_identifier (by rfl)] at hcallee
  refine ⟨c₁, hcallee, access?_openParen hhead, hhead, ?_,
    Cursor.pastBlanks_of_cons hc.rest_eq (by decide), ?_⟩
  · rw [hpast]
    exact hparen.eq_skip.symm
  · rw [hc.rest_eq]
    rfl

/-- In a call they are the arguments, if only the last one may be missing. -/
theorem readsToEnd_call (hc : c.Passes ['f', '('] d) (h : ReadsSlots (depth + 1) d trees d')
    (htrees : none ∉ trees.dropLast) (hclose : d'.Passes [')'] e) (hend : e.rest = []) :
    ReadsToEnd c (.call ⟨c.position, e.position⟩ (.identifier ⟨c.position, c.position + 1⟩ "f")
      trees.reduceOption false) := by
  obtain ⟨c₁, hcallee, haccess, hparen, rfl, hpast, hop⟩ := @exists_callee depth _ _ hc
  obtain ⟨-, hbracket, rfl⟩ := hclose.bracket (by decide)
  have hes := Derives.arguments (h.argumentList htrees) hbracket
  have hrun : RunsTo (depth + 1) c ⟨_, false⟩ true c₁ := runsTo_primary hcallee
  exact (hrun.called haccess hparen hes).readsToEnd hend hpast hop

/-- Alone they are a sequence, or the tree itself, if none is missing. -/
theorem readsToEnd_bare (h : ReadsSlots depth c trees e) (htrees : none ∉ trees)
    (hnode : sequenceNode? none trees.reduceOption = some tree) (hend : e.rest = []) :
    ReadsToEnd c tree :=
  (readsToEnd_expressions (h.expressions htrees true) hnode (.of_rest hend)).readsToEnd

/-- So they are in parentheses. -/
theorem readsToEnd_group (hc : c.Passes ['('] d) (h : ReadsSlots depth d trees d')
    (htrees : none ∉ trees)
    (hnode : sequenceNode? (some ⟨c.position, e.position⟩) trees.reduceOption = some tree)
    (hclose : d'.Passes [')'] e) (hend : e.rest = []) : ReadsToEnd c tree := by
  have hop : Token.unaryOperator? c.rest = none := by
    rw [hc.rest_eq]
    rfl
  obtain ⟨hpast, hopen, rfl⟩ := hc.bracket (by decide)
  obtain ⟨-, hbracket, rfl⟩ := hclose.bracket (by decide)
  have hgrouped := Derives.grouped (hpast.symm ▸ hopen) (hpast.symm ▸ h.expressions htrees true)
    hbracket (h.expressions htrees false).expressions_ne_nil
  rw [hpast, hnode] at hgrouped
  exact (readsToEnd_primary (.primary (.group hopen hgrouped)) (.of_rest hend) hop).readsToEnd

/-! ## What is refused -/

/-- Reading to the end of the text is refused, because this is expected at some place. -/
def RefusesFor (depth : Nat) (c : Cursor) (what : Expected) : Prop :=
  ∃ offset c', Scan.programBy entire depth c = .error ⟨.expected what, offset⟩ c'

/-- A call with an argument missing before a comma is refused. -/
theorem refuses_call (hc : c.Passes ['f', '('] d) (h : ReadsSlots (depth + 1) d trees d')
    (htrees : none ∈ trees.dropLast) : RefusesFor (depth + 4) c .elementBeforeComma := by
  obtain ⟨c₁, hcallee, haccess, hparen, rfl, hpast, hop⟩ := @exists_callee depth _ _ hc
  obtain ⟨offset, d, hfault⟩ := h.argumentList_fault htrees
  exact ⟨offset, d, Scan.programBy_eq_error
    (entire_call_fault hpast hop hcallee haccess hparen hfault)⟩

/-- So is a sequence with anything missing. -/
theorem refuses_bare (h : ReadsSlots depth c trees d) (htrees : none ∈ trees)
    (hlength : 2 ≤ trees.length) : RefusesFor depth c (expectedInSequence trees) := by
  obtain ⟨offset, d, hfault⟩ := h.pastBlanks.expressions_fault htrees hlength
  exact ⟨offset, d, Scan.programBy_eq_error
    ((readsByRule_entire depth (.sequence false) c).trans (sequence_fault hfault))⟩

/-- So is one in parentheses. -/
theorem refuses_group (hc : c.Passes ['('] d) (h : ReadsSlots depth d trees d')
    (htrees : none ∈ trees) (hlength : 2 ≤ trees.length) :
    RefusesFor (depth + 4) c (expectedInSequence trees) := by
  obtain ⟨hpast, hopen, rfl⟩ := hc.bracket (by decide)
  obtain ⟨offset, c', hfault⟩ := h.expressions_fault htrees hlength
  have hgroup := grouped_fault (hpast.symm ▸ hopen) (hpast.symm ▸ hfault)
  exact ⟨offset, c', Scan.programBy_eq_error (entire_group_fault hopen hgroup)⟩

/-- Where nothing but blanks are, the end is met too early. -/
theorem refuses_blank (h : ReadsSlots depth c [none] d) (hend : d.rest = []) :
    RefusesFor depth c .expression := by
  -- A sequence of nothing is read without a fault; the program does not accept it.
  have hsequence : Derives depth (.sequence false) c none d :=
    .ungrouped h.pastBlanks.noExpressions
  have hread := hsequence.entire_eq_ok (Or.inl le_rfl)
  exact ⟨_, _, Scan.programBy_blank hread (Cursor.AtEnd.of_rest hend)⟩

/-- Parentheses with blanks alone hold no expression. -/
theorem refuses_blankGroup (hc : c.Passes ['('] d) (h : ReadsSlots depth d [none] d')
    (hclose : d'.Passes [')'] e) : RefusesFor (depth + 4) c .expressionWithinParen := by
  obtain ⟨hpast, hopen, rfl⟩ := hc.bracket (by decide)
  have hread := h.noExpressions.entire_eq_ok (Or.inl le_rfl)
  have hgroup := grouped_blank (hpast.symm ▸ hopen) (hpast.symm ▸ hread) hclose.head?_rest
  exact ⟨_, _, Scan.programBy_eq_error (entire_group_fault hopen hgroup)⟩

/-! ## Whole texts -/

/-- A list without blank slots where none may be is read as its tree. -/
theorem exists_readsToEnd (listing : Listing) (hne : slots ≠ [])
    (hadmits : listing.admits slots = true) :
    ∃ tree, listing.tree? slots = some tree ∧
      ReadsToEnd (.ofString (listing.source slots)) tree := by
  obtain ⟨d, d', e, hopening, hclosing, hend, hsize, hslots⟩ := listing.exists_readsSlots hne
  have hslots := hslots (4 * d.rest.length + 3 + 1) le_rfl
  cases listing with
  | array =>
    have hread := readsToEnd_array hopening hslots hclosing hend
    rw [hsize] at hread
    exact ⟨_, rfl, hread⟩
  | call =>
    have hread := readsToEnd_call hopening hslots
      (Slot.dropLast_trees ▸ Slot.none_not_mem_trees.2 hadmits) hclosing hend
    rw [hsize] at hread
    exact ⟨_, rfl, hread⟩
  | bare =>
    have htrees : none ∉ Slot.trees (utf8Size bare.opening) slots :=
      Slot.none_not_mem_trees.2 hadmits
    obtain ⟨tree, hnode⟩ := hslots.exists_node htrees none
    obtain rfl := hopening.eq_of_nil
    obtain rfl := hclosing.eq_of_nil
    exact ⟨tree, hnode, readsToEnd_bare hslots htrees hnode hend⟩
  | group =>
    have htrees : none ∉ Slot.trees (utf8Size group.opening) slots :=
      Slot.none_not_mem_trees.2 hadmits
    obtain ⟨tree, hnode⟩ := hslots.exists_node htrees (some ⟨0, e.position⟩)
    have hread := readsToEnd_group hopening hslots htrees hnode hclosing hend
    rw [hsize] at hnode
    exact ⟨tree, hnode, hread⟩

/-- A list with a blank slot where none may be is refused. -/
theorem refuses (listing : Listing) (hne : slots ≠ [])
    (hrefused : listing.admits slots = false)
    (hdepth : 4 * ((listing.text slots).length + 1) ≤ depth) :
    RefusesFor depth (.ofString (listing.source slots)) (listing.expected slots) := by
  obtain ⟨d, d', e, hopening, hclosing, hend, -, hslots⟩ := listing.exists_readsSlots hne
  -- What opens the list leaves room for the levels of the slots.
  have hlength : (listing.text slots).length = listing.opening.length + d.rest.length := by
    rw [← List.length_append, ← hopening.rest_eq]
    exact congrArg List.length String.toList_ofList.symm
  obtain ⟨below, rfl⟩ := Nat.exists_eq_add_of_le' (show 4 ≤ depth by omega)
  cases listing with
  | array => cases hrefused
  | call =>
    have hopens : call.opening.length = 2 := rfl
    have hread := hslots (below + 1) (by omega)
    exact refuses_call hopening hread (Slot.dropLast_trees ▸ Slot.none_mem_trees.2 hrefused)
  | bare =>
    have hread := hslots (below + 4) (by omega)
    obtain rfl := hopening.eq_of_nil
    obtain rfl := hclosing.eq_of_nil
    rcases slots with _ | ⟨slot, _ | ⟨second, others⟩⟩
    · exact absurd rfl hne
    · cases slot with
      | blank => exact refuses_blank hread hend
      | filled => cases hrefused
    · exact refuses_bare hread (Slot.none_mem_trees.2 hrefused) (Nat.le_add_left 2 _)
  | group =>
    have hopens : group.opening.length = 1 := rfl
    have hread := hslots below (by omega)
    rcases slots with _ | ⟨slot, _ | ⟨second, others⟩⟩
    · exact absurd rfl hne
    · cases slot with
      | blank => exact refuses_blankGroup hopening hread hclosing
      | filled => cases hrefused
    · exact refuses_group hopening hread (Slot.none_mem_trees.2 hrefused) (Nat.le_add_left 2 _)

end Listing

end Reading

namespace Expr

/-- A list is read as its tree if no slot is blank that may not be, and refused otherwise. -/
theorem parseWithin_listing (listing : Listing) {slots : List Slot} (hne : slots ≠ [])
    {limits : Limits} (hlength : limits.exceeded? (listing.source slots) = none)
    (hdepth : 4 * (utf8Size (listing.source slots).toList + 1) ≤ limits.maxDepth) :
    (listing.admits slots = true → ∃ tree, listing.tree? slots = some tree ∧
      parseWithin limits (listing.source slots) = .ok tree) ∧
    (listing.admits slots = false → ∃ error,
      parseWithin limits (listing.source slots) = .error error ∧
        error.message = (Cause.expected (listing.expected slots)).message) := by
  refine ⟨fun hadmits => ?_, fun hrefused => ?_⟩
  · obtain ⟨tree, htree, hreads⟩ := listing.exists_readsToEnd hne hadmits
    exact ⟨tree, htree, parseWithin_eq_ok_of_reads hreads hlength hdepth⟩
  · have hbytes := length_le_utf8Size (listing.source slots).toList
    have htext : (listing.source slots).toList = listing.text slots := String.toList_ofList
    rw [htext] at hbytes hdepth
    obtain ⟨offset, c', hprogram⟩ :=
      listing.refuses hne hrefused (show _ ≤ limits.maxDepth by omega)
    exact ⟨_, parseWithin_eq_error hlength hprogram, rfl⟩

/-- Of two blank slots one is a hole, and the last one is none; as an argument the first one is
refused. -/
theorem parseWithin_listing_holes : ∃ slots : List Slot, slots ≠ [] ∧
    Listing.array.source slots = "[x, ,x,]" ∧
    Limits.standard.exceeded? (Listing.array.source slots) = none ∧
    4 * (utf8Size (Listing.array.source slots).toList + 1) ≤ Limits.standard.maxDepth ∧
    parseWithin .standard (Listing.array.source slots) = .ok (.array ⟨0, 8⟩
      [some (.identifier ⟨1, 2⟩ "x"), none, some (.identifier ⟨5, 6⟩ "x")]) ∧
    Listing.call.source slots = "f(x, ,x,)" ∧
    ∃ error, parseWithin .standard (Listing.call.source slots) = .error error ∧
      error.message = "expected element before comma" := by
  let x : Slot := .filled ⟨⟨"x", .identifier ⟨0, 1⟩ "x", ⟨.standard, rfl⟩⟩, rfl⟩
  let slots : List Slot := [x, .blank ⟨[' '], by decide⟩, x, .blank ⟨[], nofun⟩]
  have harray : Listing.array.source slots = "[x, ,x,]" := by decide +kernel
  have hcall : Listing.call.source slots = "f(x, ,x,)" := by decide +kernel
  have hdepth : 4 * (utf8Size (Listing.array.source slots).toList + 1) ≤
      Limits.standard.maxDepth := by
    rw [harray]
    decide
  have hdepth' : 4 * (utf8Size (Listing.call.source slots).toList + 1) ≤
      Limits.standard.maxDepth := by
    rw [hcall]
    decide
  obtain ⟨tree, htree, hread⟩ :=
    (parseWithin_listing .array (List.cons_ne_nil x _) rfl hdepth).1 rfl
  cases htree
  exact ⟨slots, nofun, harray, rfl, hdepth, hread, hcall,
    (parseWithin_listing .call (List.cons_ne_nil x _) rfl hdepth').2 rfl⟩

end Expr

end Estree
