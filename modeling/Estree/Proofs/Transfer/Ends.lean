import Estree.Proofs.Transfer.Primaries

/-!
# Readings where the text ends

What a production reads, it reads as well at the same place of a text that ends there, or goes on in
another way that stops it: the same value, with the same spans (`Derives.elsewhere`).

It is the transfer that leaves everything where it is and as it is (`Transfer.still`). Such a
transfer says that the two values look the same under a view that changes nothing, and with this
view to look the same is to be the same (`exists_like_self` and the lemmas before it, one for each
kind of value that a production may have).
-/

namespace Estree

open Text View

namespace Grammar

/-- The view that shows a tree as it is. -/
def plainView : View := ⟨id, none⟩

/-- A list on which a function changes nothing is not changed. -/
theorem map_eq_self {α : Type} {f : α → α} (h : ∀ a, f a = a) (as : List α) : as.map f = as := by
  rw [show f = id from funext h, List.map_id]

/-- The plain view shows a tree as it is. -/
theorem view_expr (e : Expr) : Viewed.view plainView e = e := e.relocated_id

/-- It shows what may be absent as it is. -/
theorem view_option {α : Type} [Viewed α] (h : ∀ a : α, Viewed.view plainView a = a)
    (a? : Option α) : Viewed.view plainView a? = a? := by
  cases a? with
  | none => rfl
  | some a => exact congrArg some (h a)

/-- It shows lists as they are. -/
theorem view_list {α : Type} [Viewed α] (h : ∀ a : α, Viewed.view plainView a = a)
    (as : List α) : Viewed.view plainView as = as :=
  map_eq_self h as

/-- It shows joined operands as they are. -/
theorem view_climbed (climbed : Climbed) : Viewed.view plainView climbed = climbed :=
  congrArg (Climbed.mk · climbed.bareLogical) (view_expr climbed.expr)

/-- It shows runs as they are. -/
theorem view_links (links : Links) : Viewed.view plainView links = links :=
  congrArg (Links.mk · links.hasOptional) (view_expr links.node)

/-- It shows callees as they are. -/
theorem view_callee (callee : Callee) : Viewed.view plainView callee = callee := by
  obtain ⟨links, es, stop?⟩ := callee
  show Callee.mk (Viewed.view plainView links) (Viewed.view plainView es) (stop?.map id) = _
  rw [view_links, view_list view_expr, Option.map_id, id_eq]

/-- A production is like itself, and its yields look the same if they are. -/
theorem exists_like_self (p : Production) : ∃ values : p.Yield → p.Yield → Prop,
    Production.Like plainView plainView p p values ∧ ∀ v w, values v w → v = w := by
  have hsame : ∀ {α : Type} [Viewed α], (∀ a : α, Viewed.view plainView a = a) →
      ∀ v w : α, plainView.Same plainView v w → v = w := by
    intro α _ hview v w h
    have heq := h.eq
    rwa [hview, hview] at heq
  cases p with
  | sequence grouped => exact ⟨_, .sequence grouped, hsame (view_option view_expr)⟩
  | expressions isFirst => exact ⟨_, .expressions isFirst, hsame (view_list view_expr)⟩
  | expression => exact ⟨_, .expression, hsame (view_option view_expr)⟩
  | conditional => exact ⟨_, .conditional, hsame (view_option view_expr)⟩
  | operands least => exact ⟨_, .operands least, hsame (view_option view_climbed)⟩
  | climb least => exact ⟨_, .climb least, hsame (view_option view_climbed)⟩
  | infixes least left isBareUnary =>
    exact ⟨_, .infixes least isBareUnary rfl, hsame view_climbed⟩
  | unary => exact ⟨_, .unary, hsame (view_option view_expr)⟩
  | unaryForm => exact ⟨_, .unaryForm, hsame (view_option view_expr)⟩
  | token => exact ⟨_, .token, hsame (view_option view_expr)⟩
  | links before => exact ⟨_, .links rfl, hsame view_links⟩
  | primary => exact ⟨_, .primary, hsame (view_option view_expr)⟩
  | primaryForm => exact ⟨_, .primaryForm, hsame (view_option view_expr)⟩
  | member before access => exact ⟨_, .member access rfl, hsame view_links⟩
  | accesses before access => exact ⟨_, .accesses access rfl, hsame view_links⟩
  | call before optional => exact ⟨_, .call optional rfl, hsame view_links⟩
  | arguments => exact ⟨_, .arguments, hsame (view_list view_expr)⟩
  | argumentList => exact ⟨_, .argumentList, hsame (view_list view_expr)⟩
  | construct start => exact ⟨_, .construct rfl, hsame view_expr⟩
  | calleeLinks before => exact ⟨_, .calleeLinks rfl, hsame view_callee⟩
  | updated operator start => exact ⟨_, .updated operator rfl, hsame view_expr⟩
  | array start => exact ⟨_, .array rfl, hsame view_expr⟩
  | elements => exact ⟨_, .elements, hsame (view_list (view_option view_expr))⟩

variable {depth : Nat} {p : Production} {c c' d d' : Cursor} {v : p.Yield} {piece : List Char}

/-- The transfer that leaves everything where it is and as it is. -/
def Transfer.still : Transfer :=
  .plain id (fun n h => congrArg (· + n) h) [] 0

/-- What is read is read at the same place of another text, if it stands there too and what follows
it stops the reading as before. -/
theorem Derives.elsewhere (h : Derives depth p c v c') (hc : c.Passes piece c')
    (hd : d.Passes piece d') (hposition : c.position = d.position)
    (hfollows : Follows p.takesComma c'.rest d'.rest) : Derives depth p d v d' ∧ Enters p c d := by
  obtain ⟨m, hm, hmoves⟩ := h.transfers none
  have hpiece : m.new Transfer.still.text = piece := by
    rw [hm.isAt.new_eq_old]
    exact List.append_cancel_right (hm.passes.rest_eq.symm.trans hc.rest_eq)
  obtain ⟨values, hlike, hvalues⟩ := exists_like_self p
  have hd := hd.of_eq hpiece.symm
  obtain ⟨w, hw, hvw⟩ := (hmoves .still rfl).derives hd hposition hfollows hlike
  rw [← hvalues v w hvw] at hw
  refine ⟨?_, (hmoves .still rfl).enters hd hposition hfollows⟩
  rwa [show Transfer.still.levels + depth = depth from Nat.zero_add depth] at hw

end Grammar

end Estree
