import Mathlib.Logic.Function.Iterate
import Estree.Proofs.Grammar.Constructs
import Estree.Proofs.Runs.Fold

/-!
# Which arguments belong to which `new`

Behind several words `new` there may be lists of member accesses with arguments between them. The
innermost `new` takes the first list and the first arguments, the next one what comes then, and so
on. Whoever finds no arguments left has none, and what no `new` has taken is a run over the
outermost one.

> `parseWithin_new`: the text is read as this tree, if no list that some `new` takes has an optional
> access; otherwise it is refused with the message about it.

The grammar goes inwards first: each word looks for its callee before it looks for its arguments. So
the words are an induction from the outermost one inwards (`Pending.isRead_build`), while the tree
is built from the innermost one outwards. What goes between them is `Pending`, a tree that has been
read and the tail that is left there: a word takes a list and arguments of the tail that the words
within it have left, and hands on the rest (`Takes.isRead`).

An optional access is met by the word that takes its list. All words within it have been read by
then, and all words around it fail with it (`Pending.exists_fault`).
-/

namespace Estree

open Text Grammar

/-! ## Texts -/

/-- A word `new` with the blanks behind it, of which there is at least one. -/
structure NewWord where
  gap : Gap
  isSpaced : gap.text ≠ []

/-- Member accesses and the arguments behind them. -/
structure Segment where
  members : List Member
  gap : Gap
  arguments : List Argument

/-- What follows a callee: segments, and member accesses at the end. -/
structure Tail where
  segments : List Segment
  members : List Member

/-- Words `new`, a name and what follows it. -/
structure Construct where
  news : List NewWord
  isNew : news ≠ []
  word : String
  isName : IsName word
  isFree : word ∉ Expr.reservedWords
  tail : Tail

namespace NewWord

def text (new : NewWord) : List Char := "new".toList ++ new.gap.text

def texts (news : List NewWord) : List Char := news.flatMap text

/-- Where the words begin, if the first one begins at an offset. -/
def starts (offset : Nat) : List NewWord → List Nat
  | [] => []
  | new :: inner => offset :: starts (offset + utf8Size new.text) inner

end NewWord

namespace Segment

def call (segment : Segment) : Call := ⟨segment.gap, false, segment.arguments⟩

def links (segment : Segment) : List RunLink :=
  segment.members.map .member ++ [.call segment.call]

end Segment

namespace Tail

def links (tail : Tail) : List RunLink :=
  tail.segments.flatMap Segment.links ++ tail.members.map .member

/-- The lists of member accesses, one more than there are arguments. -/
def lists (tail : Tail) : List (List Member) := tail.segments.map Segment.members ++ [tail.members]

/-- The first list, if the tail has not been used up. -/
def first (tail : Tail) : List Member :=
  match tail.segments with
  | segment :: _ => segment.members
  | [] => tail.members

/-- What is left after the first list and the arguments behind it. -/
def rest (tail : Tail) : Tail :=
  match tail.segments with
  | _ :: others => ⟨others, tail.members⟩
  | [] => ⟨[], []⟩

/-- The member accesses that so many words `new` take. -/
def taken (tail : Tail) (count : Nat) : List Member := (tail.lists.take count).flatten

end Tail

/-- A tree that has been read up to an offset, and what follows there. -/
structure Pending where
  node : Expr
  offset : Nat
  tail : Tail

/-- What a word `new` at an offset makes of what has been read within it. -/
def Pending.construct (start : Nat) (pending : Pending) : Pending :=
  let members := pending.tail.first.map RunLink.member
  let callee := RunLink.fold pending.offset pending.node members
  let stop := pending.offset + utf8Size (RunLink.texts members)
  match pending.tail.segments with
  | segment :: _ =>
    let stop' := stop + utf8Size segment.call.text
    let arguments := Argument.trees (stop + utf8Size segment.call.opening) segment.arguments
    ⟨.new ⟨start, stop'⟩ callee arguments, stop', pending.tail.rest⟩
  | [] => ⟨.new ⟨start, callee.span.stop⟩ callee [], stop, pending.tail.rest⟩

/-- The name at an offset, before anything is made of it. -/
def Pending.ofWord (word : String) (tail : Tail) (offset : Nat) : Pending :=
  let stop := offset + utf8Size word.toList
  ⟨.identifier ⟨offset, stop⟩ word, stop, tail⟩

/-- What words `new` make of it, of which the first one begins at an offset. The innermost one comes
first. -/
def Pending.build (offset : Nat) (news : List NewWord) (pending : Pending) : Pending :=
  (NewWord.starts offset news).foldr Pending.construct pending

namespace Construct

def text (construct : Construct) : List Char :=
  NewWord.texts construct.news ++ construct.word.toList ++ RunLink.texts construct.tail.links

def source (construct : Construct) : String := String.ofList construct.text

/-- What the words `new` make of the name. -/
def built (construct : Construct) : Pending :=
  let offset := utf8Size (NewWord.texts construct.news)
  (Pending.ofWord construct.word construct.tail offset).build 0 construct.news

/-- The tree as a whole: what no `new` has taken are ordinary links. -/
def tree (construct : Construct) : Expr :=
  let built := construct.built
  let node := RunLink.fold built.offset built.node built.tail.links
  if built.tail.links.any RunLink.optional then .chain node.span node else node

/-- The member accesses that the words `new` take. -/
def taken (construct : Construct) : List Member := construct.tail.taken construct.news.length

end Construct

/-! ## What is taken -/

namespace Tail

variable {tail : Tail}

/-- The first list, the arguments behind it, and the rest. -/
theorem texts_links_cons {segment : Segment} {others : List Segment}
    (h : tail.segments = segment :: others) : RunLink.texts tail.links =
      RunLink.texts (tail.first.map .member) ++
        (segment.call.text ++ RunLink.texts tail.rest.links) := by
  unfold first rest links
  rw [h]
  simp [RunLink.texts, Segment.links, RunLink.text]

/-- Without arguments there is one list, and nothing is left after it. -/
theorem texts_links_nil (h : tail.segments = []) : RunLink.texts tail.links =
    RunLink.texts (tail.first.map .member) ∧ RunLink.texts tail.rest.links = [] := by
  unfold first rest links
  rw [h]
  exact ⟨rfl, rfl⟩

/-- One word more takes the first list, and the others take from the rest. -/
theorem taken_succ (tail : Tail) (count : Nat) :
    tail.taken (count + 1) = tail.first ++ tail.rest.taken count := by
  unfold taken lists first rest
  cases tail.segments with
  | nil => cases count <;> simp
  | cons segment others => rfl

/-- The last one of so many words `new` takes the first list of what the others have left. -/
theorem taken_succ_last (tail : Tail) (count : Nat) :
    tail.taken (count + 1) = tail.taken count ++ (rest^[count] tail).first := by
  induction count generalizing tail with
  | zero =>
    rw [taken_succ]
    exact (List.append_nil _)
  | succ count ih =>
    rw [taken_succ, ih, ← List.append_assoc, ← taken_succ, Function.iterate_succ_apply]

end Tail

namespace Pending

/-- A word with arguments left takes them. -/
theorem construct_of_cons {pending : Pending} {segment : Segment} {others : List Segment}
    (h : pending.tail.segments = segment :: others) (start : Nat) :
    let members := pending.tail.first.map RunLink.member
    let stop := pending.offset + utf8Size (RunLink.texts members)
    let stop' := stop + utf8Size segment.call.text
    pending.construct start =
      ⟨.new ⟨start, stop'⟩ (RunLink.fold pending.offset pending.node members)
        (Argument.trees (stop + utf8Size segment.call.opening) segment.arguments), stop',
        pending.tail.rest⟩ := by
  intro members stop stop'
  rw [construct, h]

/-- A word without has none, and its node ends where its callee does. -/
theorem construct_of_nil {pending : Pending} (h : pending.tail.segments = []) (start : Nat) :
    let members := pending.tail.first.map RunLink.member
    let callee := RunLink.fold pending.offset pending.node members
    pending.construct start =
      ⟨.new ⟨start, callee.span.stop⟩ callee [],
        pending.offset + utf8Size (RunLink.texts members), pending.tail.rest⟩ := by
  intro members callee
  rw [construct, h]

/-- Either way the rest is left. -/
theorem tail_construct (start : Nat) (pending : Pending) :
    (pending.construct start).tail = pending.tail.rest := by
  unfold construct
  split <;> rfl

theorem build_cons (offset : Nat) (new : NewWord) (news : List NewWord) (pending : Pending) :
    pending.build offset (new :: news) =
      (pending.build (offset + utf8Size new.text) news).construct offset := rfl

/-- So many words take so many lists. -/
theorem tail_build (offset : Nat) (news : List NewWord) (pending : Pending) :
    (pending.build offset news).tail = Tail.rest^[news.length] pending.tail := by
  induction news generalizing offset with
  | nil => rfl
  | cons new news ih =>
    rw [build_cons, tail_construct, ih, List.length_cons, Function.iterate_succ_apply']

/-- What has been read within a `new` is no chain. -/
theorem isChain_build (word : String) (tail : Tail) (offset start : Nat) (news : List NewWord) :
    ((ofWord word tail offset).build start news).node.isChain = false := by
  cases news with
  | nil => rfl
  | cons new news =>
    rw [build_cons, construct]
    split <;> rfl

end Pending

/-- Links over what is no chain make no chain. -/
theorem RunLink.isChain_fold {offset : Nat} {before : Expr} {links : List RunLink}
    (h : before.isChain = false) : (fold offset before links).isChain = false := by
  induction links generalizing offset before with
  | nil => exact h
  | cons link links ih =>
    rw [fold_cons]
    refine ih ?_
    cases link <;> rfl

/-- There is no call among member accesses. -/
theorem any_isCall_member (members : List Member) :
    (members.map RunLink.member).any RunLink.isCall = false := by
  rw [List.any_map]
  exact List.any_eq_false.2 fun _ _ => Bool.false_ne_true

theorem any_optional_member (members : List Member) :
    (members.map RunLink.member).any RunLink.optional = members.any Member.optional :=
  List.any_map

/-! ## Reading -/

section Reading

variable {depth start : Nat} {c d d' e : Cursor} {pending : Pending}

/-- From a cursor the tree is read that is pending, up to the tail that is left, which `e` ends. -/
def Pending.IsRead (pending : Pending) (depth : Nat) (c e : Cursor) : Prop :=
  ∃ d, Derives depth .primary c (some pending.node) d ∧ d.position = pending.offset ∧
    d.Passes (RunLink.texts pending.tail.links) e

/-- A `new` at an offset, with the cursor `c` behind it, takes its callee from what is pending. It
leaves the cursor at `d`, where the tail goes on that is left. -/
structure Takes (depth start : Nat) (pending : Pending) (c : Cursor) (callee : Callee)
    (d e : Cursor) : Prop where
  reads : ∃ primary c₁, Derives depth .primary c.pastBlanks (some primary) c₁ ∧
    Derives depth (.calleeLinks ⟨primary, false⟩) c₁ callee d
  hasOptional_eq : callee.links.hasOptional = pending.tail.first.any Member.optional
  isChain_eq : callee.links.node.isChain = false
  node_eq : (pending.construct start).node =
    .new ⟨start, callee.stop?.getD callee.links.node.span.stop⟩ callee.links.node callee.arguments
  position_eq : d.position = (pending.construct start).offset
  passes : d.Passes (RunLink.texts (pending.construct start).tail.links) e

/-- A `new` goes on from what has been read within it: it takes the first list of what is left, and
the arguments behind it. -/
theorem Pending.IsRead.exists_takes (h : pending.IsRead depth c.pastBlanks e) (hend : e.rest = [])
    (hchain : pending.node.isChain = false) (hdepth : 4 * c.pastBlanks.rest.length + 4 ≤ depth)
    (start : Nat) : ∃ callee d, Takes depth start pending c callee d e := by
  obtain ⟨d, hprimary, hposition, hpasses⟩ := h
  have hdepth' : 4 * d.rest.length + 4 ≤ depth := by
    have hlength := hprimary.length_le
    omega
  have hrun : RunsTo depth c.pastBlanks ⟨pending.node, false⟩ false d := runsTo_primary hprimary
  have hfold : (RunLink.fold d.position pending.node
      (pending.tail.first.map .member)).isChain = false := RunLink.isChain_fold hchain
  -- With arguments left the callee ends where they begin, and without any where the text does.
  cases hsegments : pending.tail.segments with
  | cons segment others =>
    obtain ⟨hmembers, hcall⟩ := (hpasses.of_eq (Tail.texts_links_cons hsegments)).split
    obtain ⟨hcall, hrest⟩ := hcall.split
    have hcallee := hrun.links _ hmembers
      (by rw [hcall.rest_eq]; exact (RunLink.call segment.call).head?_text _) hdepth'
    rw [any_isCall_member, any_optional_member, Bool.false_or] at hcallee
    obtain ⟨primary, c₁, hprimary, -, hcallee⟩ := hcallee
    obtain ⟨haccess, hparen, hes⟩ :=
      segment.call.derives rfl hcall (levels_passes hmembers hdepth')
    have hstop := hcall.position_eq
    rw [hmembers.position_eq] at hstop hes
    refine ⟨_, _, ⟨primary, c₁, hprimary, hcallee rfl (.calleeArguments haccess hparen hes)⟩, rfl,
      hfold, ?_, ?_, hrest.of_eq ?_⟩
    · rw [construct_of_cons hsegments, hstop, hposition]
      rfl
    · rw [construct_of_cons hsegments, hstop, hposition]
    · rw [tail_construct]
  | nil =>
    obtain ⟨htexts, hnil⟩ := Tail.texts_links_nil hsegments
    have hmembers := hpasses.of_eq htexts
    have hcallee := hrun.links _ hmembers (by rw [hend]; exact nofun) hdepth'
    rw [any_isCall_member, any_optional_member, Bool.false_or] at hcallee
    obtain ⟨primary, c₁, hprimary, -, hcallee⟩ := hcallee
    have hnoLink := (Cursor.AtEnd.of_rest hend).hasNoLink
    refine ⟨_, _, ⟨primary, c₁, hprimary, hcallee rfl (.noCalleeLink hnoLink.access hnoLink.paren)⟩,
      rfl, hfold, ?_, ?_, (Cursor.Passes.refl e).of_eq ?_⟩
    · rw [construct_of_nil hsegments, hposition]
      rfl
    · rw [construct_of_nil hsegments, hmembers.position_eq, hposition]
    · rw [tail_construct, hnil]

/-- A `new` that has taken nothing optional is read. -/
theorem Takes.isRead {callee : Callee}
    (h : Takes depth c.position pending (c.skip "new".toList.length) callee d e)
    (hword : leadingWord c.rest = "new".toList)
    (hoptional : pending.tail.first.any Member.optional = false) :
    (pending.construct c.position).IsRead (depth + 1) c e := by
  obtain ⟨primary, c₁, hprimary, hcallee⟩ := h.reads
  have hconstruct : Derives depth (.construct c.position) (c.skip "new".toList.length) _ d :=
    .construct hprimary hcallee (h.hasOptional_eq.trans hoptional) h.isChain_eq
  rw [← h.node_eq] at hconstruct
  exact ⟨d, .primary (.new hword hconstruct), h.position_eq, h.passes⟩

/-- A `new` that has taken something optional is refused. -/
theorem Takes.fault {used : Nat} {callee : Callee}
    (h : Takes used c.position pending (c.skip "new".toList.length) callee d e)
    (hword : leadingWord c.rest = "new".toList)
    (hoptional : pending.tail.first.any Member.optional = true)
    (hdepth : 4 * (c.skip "new".toList.length).pastBlanks.rest.length + 1 ≤ depth) :
    entire (depth + 1) .primary c = .error ⟨.chainInNew, c.position⟩ d := by
  obtain ⟨primary, c₁, hprimary, hcallee⟩ := h.reads
  have hlength := hprimary.length_le
  exact entire_new_fault hword (construct_chain (hprimary.entire_eq_ok (Or.inr hdepth))
    (hcallee.entire_eq_ok (Or.inr (by simp only [levels]; omega)))
    (h.hasOptional_eq.trans hoptional))

variable {new : NewWord} {news : List NewWord} {word : String} {tail : Tail}

/-- The word `new` is read as such, and the blanks behind it are passed. -/
theorem NewWord.passes {x : Char} (h : c.Passes new.text d) (hhead : d.rest.head? = some x)
    (hx : isBlank x = false) :
    leadingWord c.rest = "new".toList ∧ (c.skip "new".toList.length).pastBlanks = d := by
  obtain ⟨hword, hgap⟩ := h.split
  refine ⟨?_, pastBlanks_of_passes hgap new.gap.blank (by simp [hhead, hx])⟩
  rw [hword.rest_eq, hgap.rest_eq]
  refine Source.isName_leadingWord_append (Source.isName_of_mem_reservedWords (by decide)) ?_
  obtain ⟨y, ys, hy⟩ := List.exists_cons_of_ne_nil new.isSpaced
  intro z hz
  rw [hy] at hz
  obtain rfl := Option.some.inj hz
  exact isIdentifierPart_of_isBlank (new.gap.blank y (hy ▸ List.mem_cons_self ..))

/-- No blanks stand before a `new` or a name. -/
theorem NewWord.head?_texts (hname : IsName word) (news : List NewWord) (text : List Char) :
    ∃ x, (texts news ++ word.toList ++ text).head? = some x ∧ isBlank x = false := by
  cases news with
  | nil =>
    obtain ⟨x, xs, hlist, hx⟩ := Source.isName_starts hname
    exact ⟨x, by rw [hlist]; rfl, hx⟩
  | cons new news => exact ⟨'n', rfl, rfl⟩

/-- Behind a word `new` and its blanks the other words and the name come. -/
theorem NewWord.split (hname : IsName word) (hc : c.Passes (texts (new :: news) ++ word.toList) d) :
    let inner := (c.skip "new".toList.length).pastBlanks
    leadingWord c.rest = "new".toList ∧ inner.Passes (texts news ++ word.toList) d ∧
      c.position + utf8Size (texts (new :: news)) = inner.position + utf8Size (texts news) ∧
      inner.position = c.position + utf8Size new.text ∧ inner.rest.length + 3 ≤ c.rest.length := by
  rw [texts, List.flatMap_cons, List.append_assoc] at hc
  obtain ⟨hnew, hinner⟩ := hc.split
  generalize c.skip new.text.length = c₁ at hnew hinner
  obtain ⟨x, hhead, hx⟩ := head?_texts hname news d.rest
  obtain ⟨hword, rfl⟩ := passes hnew (hinner.rest_eq ▸ hhead) hx
  have hlength := congrArg List.length hnew.rest_eq
  rw [text, List.length_append, List.length_append] at hlength
  have hthree : "new".toList.length = 3 := rfl
  refine ⟨hword, hinner, ?_, hnew.position_eq, by omega⟩
  rw [hnew.position_eq, texts, List.flatMap_cons, utf8Size_append, Nat.add_assoc]
  rfl

/-- Words `new` with a name behind them are read as what they make of it, if no access that they
take is optional. -/
theorem Pending.isRead_build (hname : IsName word) (hfree : word ∉ Expr.reservedWords)
    (hd : d.Passes (RunLink.texts tail.links) e) (hend : e.rest = [])
    (hc : c.Passes (NewWord.texts news ++ word.toList) d)
    (htaken : (tail.taken news.length).any Member.optional = false)
    (hdepth : 4 * c.rest.length + 4 ≤ depth) :
    ((ofWord word tail (c.position + utf8Size (NewWord.texts news))).build c.position
      news).IsRead depth c e := by
  induction news generalizing c depth with
  | nil =>
    have hword : ∀ x ∈ d.rest.head?, isIdentifierPart x = false := by
      rw [hd.rest_eq]
      exact RunLink.head?_texts (by rw [hend]; exact nofun)
    exact ⟨d, derives_identifier hname hfree hc hword hdepth, hc.position_eq, hd⟩
  | cons new news ih =>
    obtain ⟨hword, hinner, hbase, hposition, hlength⟩ := NewWord.split hname hc
    obtain ⟨below, rfl⟩ : ∃ below, depth = below + 1 := ⟨depth - 1, by omega⟩
    rw [List.length_cons, Tail.taken_succ_last, List.any_append, Bool.or_eq_false_iff] at htaken
    obtain ⟨htaken, hfirst⟩ := htaken
    have hread := ih hinner htaken (show _ ≤ below by omega)
    obtain ⟨callee, d', htakes⟩ :=
      hread.exists_takes hend (isChain_build word tail _ _ news) (by omega) c.position
    rw [hbase, build_cons, ← hposition]
    exact htakes.isRead hword (by rw [tail_build]; exact hfirst)

/-- If some access that they take is optional, they are refused. -/
theorem Pending.exists_fault (hname : IsName word) (hfree : word ∉ Expr.reservedWords)
    (hd : d.Passes (RunLink.texts tail.links) e) (hend : e.rest = [])
    (hc : c.Passes (NewWord.texts news ++ word.toList) d)
    (htaken : (tail.taken news.length).any Member.optional = true)
    (hdepth : 4 * c.rest.length + 1 ≤ depth) :
    ∃ offset c', entire depth .primary c = .error ⟨.chainInNew, offset⟩ c' := by
  induction news generalizing c depth with
  | nil => cases htaken
  | cons new news ih =>
    obtain ⟨hword, hinner, -, -, hlength⟩ := NewWord.split hname hc
    obtain ⟨below, rfl⟩ : ∃ below, depth = below + 1 := ⟨depth - 1, by omega⟩
    rw [List.length_cons, Tail.taken_succ_last, List.any_append] at htaken
    -- The innermost `new` that takes something optional ends the reading.
    by_cases hwithin : (tail.taken news.length).any Member.optional = true
    · obtain ⟨offset, c', hfault⟩ := ih hinner hwithin (show _ ≤ below by omega)
      exact ⟨offset, c', entire_new_fault hword (construct_fault hfault)⟩
    · have hwithin := Bool.eq_false_iff.2 hwithin
      rw [hwithin, Bool.false_or] at htaken
      have hread := isRead_build hname hfree hd hend hinner hwithin le_rfl
      obtain ⟨callee, d', htakes⟩ :=
        hread.exists_takes hend (isChain_build word tail _ _ news) le_rfl c.position
      exact ⟨_, _, htakes.fault hword (by rw [tail_build]; exact htaken) (by omega)⟩

end Reading

/-! ## Whole texts -/

/-- The cursor comes to the end of the text by the words `new` with the name, and then the tail; no
blanks are before the first word, and no unary operator. -/
theorem Construct.exists_passes (construct : Construct) :
    let c := Cursor.ofString construct.source
    ∃ d e, c.Passes (NewWord.texts construct.news ++ construct.word.toList) d ∧
      d.Passes (RunLink.texts construct.tail.links) e ∧ e.rest = [] ∧
      c.pastBlanks = c ∧ Token.unaryOperator? c.rest = none := by
  intro c
  obtain ⟨d, e, hnews, htail, hend⟩ : ∃ d e, c.Passes _ d ∧ _ := Cursor.exists_passes_ofList
    (NewWord.texts construct.news ++ construct.word.toList) (RunLink.texts construct.tail.links)
  refine ⟨d, e, hnews, htail, hend, ?_⟩
  obtain ⟨new, others, hcons⟩ := List.exists_cons_of_ne_nil construct.isNew
  rw [hcons] at hnews
  obtain ⟨hword, -⟩ := NewWord.split construct.isName hnews
  refine ⟨Cursor.pastBlanks_of_cons (x := 'n') hnews.rest_eq (by decide), ?_⟩
  rw [Token.unaryOperator?_of_leadingWord hword (by decide), String.ofList_toList]
  rfl

namespace Expr

/-- Behind words `new` each of them takes its member accesses and arguments, the innermost one
first; the reading fails if one of these accesses is optional. -/
theorem parseWithin_new (construct : Construct) {limits : Limits}
    (hlength : limits.exceeded? construct.source = none)
    (hdepth : 4 * (utf8Size construct.source.toList + 1) ≤ limits.maxDepth) :
    (construct.taken.any Member.optional = false →
      parseWithin limits construct.source = .ok construct.tree) ∧
    (construct.taken.any Member.optional = true →
      ∃ error, parseWithin limits construct.source = .error error ∧
        error.message = "chain expression not allowed in new expression") := by
  obtain ⟨d, e, hnews, htail, hend, hpast, hoperator⟩ := construct.exists_passes
  refine ⟨fun htaken => ?_, fun htaken => ?_⟩
  · obtain ⟨d', hprimary, hposition, hlinks⟩ := Pending.isRead_build construct.isName
      construct.isFree htail hend hnews htaken le_rfl
    have hfirst : RunsTo _ _ ⟨_, false⟩ true d' := runsTo_primary hprimary
    have hrun := hfirst.links _ hlinks (by rw [hend]; exact nofun)
      (by have := hprimary.length_le; omega)
    rw [hposition, Bool.false_or, Cursor.ofString_position, Nat.zero_add] at hrun
    obtain ⟨depth, c', hderives, hend'⟩ := hrun.readsToEnd hend hpast hoperator
    exact parseWithin_eq_ok_of_reads ⟨depth, c', hderives, hend'⟩ hlength hdepth
  · have hbytes : construct.source.toList.length ≤ utf8Size construct.source.toList :=
      length_le_utf8Size _
    obtain ⟨depth, hmax⟩ : ∃ depth, limits.maxDepth = depth + 3 := ⟨limits.maxDepth - 3, by omega⟩
    obtain ⟨offset, c', hfault⟩ := Pending.exists_fault construct.isName construct.isFree htail
      hend hnews htaken (show 4 * construct.source.toList.length + 1 ≤ depth by omega)
    have hprogram := Scan.programBy_eq_error (entire_sequence_fault hpast hoperator hfault)
    refine ⟨(⟨.chainInNew, offset⟩ : Fault).toError construct.source, ?_, rfl⟩
    rw [parseWithin_eq_parseBy readsByRule_entire, parseBy, hlength, hmax, hprogram]
    rfl

/-- The outer `new` has no arguments, as the inner one takes them; and an optional access is
refused. -/
theorem parseWithin_new_nested : ∃ construct refused : Construct,
    construct.source = "new new x.y(x)[x]" ∧
    construct.tree = .new ⟨0, 17⟩
      (.member ⟨4, 17⟩
        (.new ⟨4, 14⟩
          (.member ⟨8, 11⟩ (.identifier ⟨8, 9⟩ "x") (.identifier ⟨10, 11⟩ "y") false false)
          [.identifier ⟨12, 13⟩ "x"])
        (.identifier ⟨15, 16⟩ "x") true false) [] ∧
    Limits.standard.exceeded? construct.source = none ∧
    4 * (utf8Size construct.source.toList + 1) ≤ Limits.standard.maxDepth ∧
    parseWithin .standard construct.source = .ok construct.tree ∧
    refused.source = "new x?.y" ∧ ∃ error, parseWithin .standard refused.source = .error error ∧
      error.message = "chain expression not allowed in new expression" := by
  let x : Argument := ⟨⟨"x", .identifier ⟨0, 1⟩ "x", ⟨.standard, rfl⟩⟩, rfl⟩
  let new : NewWord := ⟨⟨[' '], by decide⟩, by decide⟩
  let y : Key := .named "y" ⟨'y', [], rfl, by decide, nofun⟩
  let construct : Construct := ⟨[new, new], nofun, "x", ⟨'x', [], rfl, by decide, nofun⟩,
    by decide, ⟨[⟨[⟨⟨[], nofun⟩, false, y⟩], ⟨[], nofun⟩, [x]⟩],
      [⟨⟨[], nofun⟩, false, .computed x.toAccepted⟩]⟩⟩
  let refused : Construct := ⟨[new], nofun, "x", ⟨'x', [], rfl, by decide, nofun⟩, by decide,
    ⟨[], [⟨⟨[], nofun⟩, true, y⟩]⟩⟩
  have hsource : construct.source = "new new x.y(x)[x]" := by decide +kernel
  have hrefused : refused.source = "new x?.y" := by decide +kernel
  have hdepth : 4 * (utf8Size construct.source.toList + 1) ≤ Limits.standard.maxDepth := by
    rw [hsource]
    decide
  have hdepth' : 4 * (utf8Size refused.source.toList + 1) ≤ Limits.standard.maxDepth := by
    rw [hrefused]
    decide
  refine ⟨construct, refused, hsource, ?_, rfl, hdepth,
    (parseWithin_new construct rfl hdepth).1 rfl, hrefused,
    (parseWithin_new refused rfl hdepth').2 rfl⟩
  dsimp only [construct, new, y, x, Construct.tree, Construct.built]
  rfl

end Expr

end Estree
