import Mathlib.Data.List.Induction
import Estree.Proofs.Expr.Nodes

/-!
# Spines

The spine of a run of member accesses and calls goes from an access to its object and from a call to
its callee, and ends at any other node. An optional link on it makes the whole run a chain, so where
chains are in a tree is a matter of its spines.

> `optional_iff`: every optional link of a tree lies on the spine of a chain, exactly if there is
> none on the spine of the root and none on a spine that begins at a detached node.

Places are paths from the root of the whole tree, so that equal trees at two places are told apart.
The two sides are of different kinds: one speaks of whole spines, the other of a node and what is
right below it. They are brought together along a path, which either goes on with the spine or
leaves it (`mem_detached_or`). Going up from a link on the spine of a chain stays on that spine
until the chain is met (`InChain.up`), and the chain is the only one (`InChain.top_unique`).
-/

namespace Estree

namespace Expr

variable {e x : Expr}

/-! ## Links -/

/-- Member accesses and calls are links. -/
def isLink : Expr → Bool
  | call .. | member .. => true
  | _ => false

/-- Whether the node is an optional link, one of `?.`. -/
def isOptional : Expr → Bool
  | call _ _ _ optional | member _ _ _ _ optional => optional
  | _ => false

/-- Whether there is an optional link on the spine that begins at the node. -/
def hasOptionalLink : Expr → Bool
  | call _ callee _ optional => optional || callee.hasOptionalLink
  | member _ object _ _ optional => optional || object.hasOptionalLink
  | _ => false

/-- The nodes right below a node where no spine goes on: all but the object of an access, the callee
of a call and the expression of a chain. -/
def detached : Expr → List Expr
  | call _ _ arguments _ => arguments
  | member _ _ property _ _ => [property]
  | chain .. => []
  | e => e.children

/-- Only on links a spine has an optional one. -/
theorem isLink_of_hasOptionalLink (h : e.hasOptionalLink = true) : e.isLink = true := by
  cases e <;> first | rfl | cases h

/-- An optional link is on the spine that begins at it. -/
theorem hasOptionalLink_of_isOptional (h : e.isOptional = true) : e.hasOptionalLink = true := by
  cases e with
  | call span callee es optional =>
    obtain rfl : optional = true := h
    rfl
  | member span object property computed optional =>
    obtain rfl : optional = true := h
    rfl
  | _ => cases h

/-- A link is no chain. -/
theorem isChain_of_isLink (h : e.isLink = true) : e.isChain = false := by
  cases e <;> first | rfl | cases h

/-- A node right below is detached, or the first one below a chain or a link. -/
theorem mem_detached_or {i : Nat} (h : e.children[i]? = some x) :
    x ∈ e.detached ∨ i = 0 ∧ ((∃ span, e = .chain span x) ∨
      e.isLink = true ∧ (x.hasOptionalLink = true → e.hasOptionalLink = true)) := by
  cases e with
  | call span callee es optional =>
    cases i with
    | zero =>
      obtain rfl : callee = x := Option.some.inj h
      exact Or.inr ⟨rfl, Or.inr ⟨rfl, fun hx => by rw [hasOptionalLink, hx, Bool.or_true]⟩⟩
    | succ i => exact Or.inl (List.mem_of_getElem? (show es[i]? = some x from h))
  | member span object property computed optional =>
    cases i with
    | zero =>
      obtain rfl : object = x := Option.some.inj h
      exact Or.inr ⟨rfl, Or.inr ⟨rfl, fun hx => by rw [hasOptionalLink, hx, Bool.or_true]⟩⟩
    | succ i => exact Or.inl (List.mem_of_getElem? (show [property][i]? = some x from h))
  | chain span inner =>
    cases i with
    | zero =>
      obtain rfl : inner = x := Option.some.inj h
      exact Or.inr ⟨rfl, Or.inl ⟨span, rfl⟩⟩
    | succ i => cases h
  | _ => exact Or.inl (List.mem_of_getElem? h)

/-- A detached node stands right below a node that is no chain, and not first below a link. -/
theorem exists_index_of_mem_detached (h : x ∈ e.detached) :
    ∃ i, e.children[i]? = some x ∧ e.isChain = false ∧ (e.isLink = true → i ≠ 0) := by
  cases e with
  | call span callee es optional =>
    obtain ⟨i, hi⟩ := List.mem_iff_getElem?.1 (show x ∈ es from h)
    exact ⟨i + 1, hi, rfl, fun _ => Nat.succ_ne_zero i⟩
  | member span object property computed optional =>
    obtain rfl := List.mem_singleton.1 h
    exact ⟨1, rfl, rfl, fun _ => Nat.one_ne_zero⟩
  | chain span inner => cases h
  | _ =>
    obtain ⟨i, hi⟩ := List.mem_iff_getElem?.1 h
    exact ⟨i, hi, rfl, fun hlink => by cases hlink⟩

/-! ## Places on spines -/

/-- The places on the spine that begins at `start`. -/
inductive OnSpine (e : Expr) (start : List Nat) : List Nat → Prop
  | start : OnSpine e start start
  | down {path : List Nat} {link : Expr} :
    OnSpine e start path → e.at? path = some link → link.isLink = true →
    OnSpine e start (path ++ [0])

/-- The place lies on the spine of the chain at `top`. -/
def InChain (e : Expr) (top path : List Nat) : Prop :=
  ∃ span inner, e.at? top = some (.chain span inner) ∧ OnSpine e (top ++ [0]) path

/-- The last step of a path goes from a node to one right below it. -/
theorem at?_append_singleton {path : List Nat} {i : Nat} (h : e.at? (path ++ [i]) = some x) :
    ∃ n, e.at? path = some n ∧ n.children[i]? = some x := by
  rw [at?_append] at h
  obtain ⟨n, hn, h⟩ := Option.bind_eq_some_iff.1 h
  obtain ⟨child, hchild, h⟩ := Option.bind_eq_some_iff.1 h
  cases h
  exact ⟨n, hn, hchild⟩

/-- A path with one step more. -/
theorem at?_child {path : List Nat} {i : Nat} {n : Expr} (hn : e.at? path = some n)
    (hx : n.children[i]? = some x) : e.at? (path ++ [i]) = some x := by
  rw [at?_append, hn]
  show n.children[i]?.bind _ = some x
  rw [hx]
  rfl

/-- The spine from below a link goes on that of the link. -/
theorem OnSpine.up {start path : List Nat} {link : Expr} (h : OnSpine e (start ++ [0]) path)
    (hat : e.at? start = some link) (hlink : link.isLink = true) : OnSpine e start path := by
  induction h with
  | start => exact .down .start hat hlink
  | down _ hpath hdown ih => exact .down ih hpath hdown

/-- `hasOptionalLink` says what it is meant to. -/
theorem hasOptionalLink_iff {start : List Nat} (hx : e.at? start = some x) :
    x.hasOptionalLink = true ↔
      ∃ path link, OnSpine e start path ∧ e.at? path = some link ∧ link.isOptional = true := by
  constructor
  · intro h
    induction x using Expr.induction generalizing start with
    | h x ih =>
      by_cases hoptional : x.isOptional = true
      · exact ⟨start, x, .start, hx, hoptional⟩
      · have hlink := isLink_of_hasOptionalLink h
        -- The link is further down, below the object or the callee.
        obtain ⟨head, hhead, hhas⟩ :
            ∃ head, x.children[0]? = some head ∧ head.hasOptionalLink = true := by
          cases x with
          | call span callee es optional =>
            refine ⟨callee, rfl, ?_⟩
            obtain rfl : optional = false := Bool.eq_false_iff.2 hoptional
            exact h
          | member span object property computed optional =>
            refine ⟨object, rfl, ?_⟩
            obtain rfl : optional = false := Bool.eq_false_iff.2 hoptional
            exact h
          | _ => cases h
        obtain ⟨path, link, hpath, hat, hlast⟩ :=
          ih head (List.mem_of_getElem? hhead) (at?_child hx hhead) hhas
        exact ⟨path, link, hpath.up hx hlink, hat, hlast⟩
  · rintro ⟨path, link, hpath, hat, hoptional⟩
    have hlast := hasOptionalLink_of_isOptional hoptional
    -- From the optional link up to the start; on the way only `hasOptionalLink` is left of it.
    clear hoptional
    induction hpath generalizing link with
    | start =>
      obtain rfl := Option.some.inj (hat.symm.trans hx)
      exact hlast
    | down _ hlinkAt hlink ih =>
      obtain ⟨n, hn, hchild⟩ := at?_append_singleton hat
      obtain rfl := Option.some.inj (hn.symm.trans hlinkAt)
      refine ih _ hn ?_
      cases n with
      | call => exact Bool.or_eq_true_iff.2 (Or.inr (Option.some.inj hchild ▸ hlast))
      | member => exact Bool.or_eq_true_iff.2 (Or.inr (Option.some.inj hchild ▸ hlast))
      | _ => cases hlink

/-! ## Places in chains -/

/-- The root is in no chain. -/
theorem InChain.ne_nil {top path : List Nat} (h : InChain e top path) : path ≠ [] := by
  obtain ⟨span, inner, -, h⟩ := h
  cases h with
  | start => exact List.append_ne_nil_of_right_ne_nil _ (List.cons_ne_nil 0 [])
  | down => exact List.append_ne_nil_of_right_ne_nil _ (List.cons_ne_nil 0 [])

/-- A place is in a chain if it is right below the chain, or below a link in the chain. -/
theorem inChain_append_singleton {top path : List Nat} {i : Nat} (h : InChain e top (path ++ [i])) :
    i = 0 ∧ ∃ n, e.at? path = some n ∧
      (n.isChain = true ∧ top = path ∨ n.isLink = true ∧ InChain e top path) := by
  obtain ⟨span, inner, htop, h⟩ := h
  generalize hlast : path ++ [i] = last at h
  cases h with
  | start =>
    obtain ⟨rfl, hi⟩ := List.append_inj' hlast rfl
    cases hi
    exact ⟨rfl, _, htop, Or.inl ⟨rfl, rfl⟩⟩
  | down h hat hlink =>
    obtain ⟨rfl, hi⟩ := List.append_inj' hlast rfl
    cases hi
    exact ⟨rfl, _, hat, Or.inr ⟨hlink, span, inner, htop, h⟩⟩

/-- No place is in two chains. -/
theorem InChain.top_unique {top top' path : List Nat} (h : InChain e top path)
    (h' : InChain e top' path) : top = top' := by
  -- The parent alone decides: it is the chain, or a link in the same chain.
  induction path using List.reverseRecOn with
  | nil => exact absurd rfl h.ne_nil
  | append_singleton path i ih =>
    obtain ⟨-, n, hn, hcase⟩ := inChain_append_singleton h
    obtain ⟨-, n', hn', hcase'⟩ := inChain_append_singleton h'
    obtain rfl := Option.some.inj (hn.symm.trans hn')
    rcases hcase with ⟨hchain, rfl⟩ | ⟨hlink, hin⟩
    · rcases hcase' with ⟨-, rfl⟩ | ⟨hlink, -⟩
      · rfl
      · rw [isChain_of_isLink hlink] at hchain
        cases hchain
    · rcases hcase' with ⟨hchain, -⟩ | ⟨-, hin'⟩
      · rw [isChain_of_isLink hlink] at hchain
        cases hchain
      · exact ih hin hin'

/-- What is further down a spine is in no other chain than what is further up. -/
theorem InChain.up {top start path : List Nat} (h : InChain e top path)
    (hpath : OnSpine e start path) : InChain e top start := by
  induction hpath with
  | start => exact h
  | down _ hat hlink ih =>
    obtain ⟨-, n, hn, hcase⟩ := inChain_append_singleton h
    obtain rfl := Option.some.inj (hn.symm.trans hat)
    rcases hcase with ⟨hchain, -⟩ | ⟨-, hin⟩
    · rw [isChain_of_isLink hlink] at hchain
      cases hchain
    · exact ih hin

/-- Every optional link lies on the spine of a chain exactly if no spine that begins elsewhere has
one: neither at the root nor where a spine does not go on. -/
theorem optional_iff :
    (∀ path link, e.at? path = some link → link.isOptional = true → ∃ top, InChain e top path) ↔
      e.hasOptionalLink = false ∧
        ∀ n ∈ e.nodes, ∀ x ∈ n.detached, x.hasOptionalLink = false := by
  constructor
  · intro h
    -- If a spine has an optional link, then its first place is in a chain as well (`InChain.up`);
    -- the root is in none, and a detached node is not the first one below its parent.
    refine ⟨?_, ?_⟩
    · refine Bool.eq_false_iff.2 fun hhas => ?_
      have hroot : e.at? [] = some e := rfl
      obtain ⟨path, link, hpath, hat, hoptional⟩ := (hasOptionalLink_iff hroot).1 hhas
      obtain ⟨top, hin⟩ := h path link hat hoptional
      exact (hin.up hpath).ne_nil rfl
    · intro n hn x hx
      refine Bool.eq_false_iff.2 fun hhas => ?_
      obtain ⟨start, hstart⟩ := exists_at?_of_mem_nodes hn
      obtain ⟨i, hi, hchain, hlink⟩ := exists_index_of_mem_detached hx
      obtain ⟨path, link, hpath, hat, hoptional⟩ :=
        (hasOptionalLink_iff (at?_child hstart hi)).1 hhas
      obtain ⟨top, hin⟩ := h path link hat hoptional
      obtain ⟨hzero, n', hn', hcase⟩ := inChain_append_singleton (hin.up hpath)
      obtain rfl := Option.some.inj (hstart.symm.trans hn')
      rcases hcase with ⟨hchain', -⟩ | ⟨hlink', -⟩
      · rw [hchain] at hchain'
        cases hchain'
      · exact hlink hlink' hzero
  · rintro ⟨hroot, hdetached⟩ path link hat hoptional
    have hhas := hasOptionalLink_of_isOptional hoptional
    -- Up the path until a chain is met: a link hands the optional link on to its parent.
    clear hoptional
    induction path using List.reverseRecOn generalizing link with
    | nil =>
      cases hat
      rw [hroot] at hhas
      cases hhas
    | append_singleton path i ih =>
      obtain ⟨n, hn, hchild⟩ := at?_append_singleton hat
      rcases mem_detached_or hchild with hx | ⟨rfl, ⟨span, rfl⟩ | ⟨hlink, hup⟩⟩
      · rw [hdetached n (mem_nodes_of_at? hn) link hx] at hhas
        cases hhas
      · exact ⟨path, span, link, hn, .start⟩
      · obtain ⟨top, span, inner, htop, hpath⟩ := ih n hn (hup hhas)
        exact ⟨top, span, inner, htop, .down hpath hn hlink⟩

end Expr

end Estree
