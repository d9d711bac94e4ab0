import Estree.Proofs.Grammar.Agreement

/-!
# Frames

A reader that calls itself for every production keeps a frame for each one that is open. Here it is
given room for so many frames and gives up when that is not enough. `parseInRoom_eq_some`: seven
frames for each level are enough, and two for each point with a parenthesis after it.

Levels alone do not bound the frames. In `f.(x)` the point hands over to a call, and the call goes
on with the next access before it ends, so a run of such calls nests one in the other on one level.
The bound is kept by a potential: `credit` is what a production may still need, and each production
that it opens needs so much less as its own frames take.

> `unfoldInRoom`: the grammar with its frames counted; the rounds of a loop share one frame.
> `credit p depth c`: seven frames for each level left, two for each point that hands over from here
> on, and those that the production may need before it does either (`leastCredit`).
> `Opens.credit_le`, `Nests.credit_le`: what is opened needs no more than the credit less the frames
> of the production that opens it.
> `unfoldInRoom_agrees`: with room for its credit, a production is read as without a count.

The two for a point are paid when the access takes it: the point has been counted before the access,
and is not counted behind it (`TakesAccess.handovers_le`).
-/

namespace Estree

open Scan

/-- Nothing is an excuse, and there is no want of steps. -/
def Excuses.neverOut : Excuses where
  common := (· ≠ .outOfFuel)
  excused _ := False
  common_of_production := by
    rintro _ hproduction rfl
    cases hproduction

/-- A character that is not expected is no want of steps. -/
theorem Excuses.neverOut_unexpected (y : Char) : neverOut.common (.unexpected y) := by
  rintro ⟨⟩

/-! ## Points that hand over -/

/-- How many points of a text have a parenthesis after them, or blanks and a parenthesis. -/
def Text.handovers : List Char → Nat
  | [] => 0
  | c :: cs =>
    (if c = '.' ∧ (cs.dropWhile Text.isBlank).head? = some '(' then 1 else 0) + handovers cs

/-- Of what is left no more points hand over. -/
theorem Text.handovers_drop_le (cs : List Char) (n : Nat) :
    handovers (cs.drop n) ≤ handovers cs := by
  induction cs generalizing n with
  | nil => simp
  | cons c cs ih =>
    cases n with
    | zero => exact Nat.le_refl _
    | succ n => exact (ih n).trans (Nat.le_add_left _ _)

/-- One if a parenthesis comes at the cursor where the name of the access is looked for. -/
def Cursor.handsOver (c : Cursor) (access : Access) : Nat :=
  if access.computed = false ∧ c.pastBlanks.rest.head? = some '(' then 1 else 0

/-- Further on no more points hand over. -/
theorem Cursor.Reaches.handovers_le {c c₁ : Cursor} (h : c.Reaches c₁) :
    Text.handovers c₁.rest ≤ Text.handovers c.rest := by
  obtain ⟨n, rfl⟩ := h
  exact Text.handovers_drop_le c.rest n

/-- A point that hands over is counted before its access and not behind it. -/
theorem Cursor.TakesAccess.handovers_le {c c₁ : Cursor} {access : Access}
    (h : c.TakesAccess access c₁) :
    Text.handovers c₁.rest + c₁.handsOver access ≤ Text.handovers c.rest := by
  obtain ⟨c₀, hc₀, haccess, rfl⟩ := h.reaches
  have hle := (hc₀.trans c₀.reaches_pastBlanks).handovers_le
  obtain ⟨rest, hrest⟩ := Token.access?_eq_some haccess
  have hskip : (c₀.pastBlanks.skip access.text.length).rest = rest :=
    Cursor.skip_length_rest hrest
  rw [hrest] at hle
  refine Nat.le_trans ?_ hle
  rw [Cursor.handsOver, Cursor.pastBlanks_rest, hskip]
  rcases access with ⟨_ | _, _ | _⟩ <;>
    simp [Text.handovers, Access.text, Nat.add_comm]

/-! ## Reading with frames -/

namespace Grammar

/-- The frames of a production. The rounds of a loop share the one of the production that they are
part of; the operands of a conditional and what follows `new` are reached through one more. -/
def frames : Production → Nat
  | .expressions _ | .infixes .. | .links _ | .accesses .. | .argumentList | .calleeLinks _
  | .elements => 0
  | .operands least => if least = 1 then 2 else 1
  | .construct _ => 2
  | _ => 1

/-- The frames that the leaves of a production take on top of its own. Room is kept for them from
the start, whether a leaf is read or not. -/
def leafFrames : Production → Nat
  | .accesses .. => 2
  | .token | .primaryForm => 1
  | _ => 0

/-- The grammar, unfolded so many times, with room for so many frames. It gives up where there is no
room for the frames of a production and its leaves. -/
def unfoldInRoom : (fuel : Nat) → (room : Nat) → (depth : Nat) → (production : Production) →
    Scan production.Yield
  | 0, _, _, _ => fail .outOfFuel
  | fuel + 1, room, depth, production =>
    if room < frames production + leafFrames production then
      fail .outOfFuel
    else
      step (fun depth => unfoldInRoom fuel (room - frames production) depth) depth production

end Grammar

/-- Reads from the cursor to the end of the text, with room for so many frames; one is its own. -/
def Scan.programInRoom (room maxDepth : Nat) : Scan Expr :=
  programOf fun length =>
    Grammar.unfoldInRoom (Grammar.fuel length) (room - 1) maxDepth (.sequence false)

/-- Reads a text within limits, with room for so many frames; nothing if it gives up. -/
def Expr.parseInRoom (room : Nat) (limits : Limits) (source : String) :
    Option (Except SyntaxError Expr) :=
  match limits.exceeded? source with
  | some limit => some (.error ((⟨.tooLong limit, limit⟩ : Fault).toError source))
  | none =>
    match Scan.programInRoom room limits.maxDepth (.ofString source) with
    | .ok e _ => some (.ok e)
    | .error fault _ =>
      if fault.cause = .outOfFuel then none else some (.error (fault.toError source))

/-! ## The potential -/

namespace Grammar

/-- The frames that a production may need before it goes a level further down or hands over. -/
def leastCredit : Production → Nat
  | .expressions _ | .expression | .argumentList | .elements | .unary | .primary => 1
  | .sequence _ | .operands _ | .infixes .. | .accesses .. | .arguments | .array _ => 2
  | .conditional | .climb _ | .member .. | .calleeLinks _ => 3
  | .links _ | .call .. => 4
  | .token | .construct _ => 5
  | .unaryForm | .updated .. => 6
  | .primaryForm => 7

/-- The points that hand over from the cursor on, the one before it included if the access of the
production does. -/
def pending : Production → Cursor → Nat
  | .member _ access, c | .accesses _ access, c =>
    Text.handovers c.rest + c.handsOver access
  | _, c => Text.handovers c.rest

/-- The frames that a production may need at a cursor, on so many levels. -/
def credit (p : Production) (depth : Nat) (c : Cursor) : Nat :=
  leastCredit p + 7 * depth + 2 * pending p c

variable {p q : Production} {c c₁ : Cursor} {depth : Nat}

/-- Operands take at most two frames. -/
theorem frames_operands_le (least : Nat) : frames (.operands least) ≤ 2 := by
  rw [frames]
  split <;> decide

/-- A production has credit for its own frames and those of its leaves. -/
theorem frames_le_leastCredit (p : Production) : frames p + leafFrames p ≤ leastCredit p := by
  cases p with
  | operands least => exact frames_operands_le least
  | _ => simp [frames, leafFrames, leastCredit]

/-- Whatever a production opens needs so much less as the frames of the production take. -/
theorem Opens.credit_le (h : Opens p c q c₁) : credit q depth c₁ + frames p ≤ credit p depth c := by
  have hhandovers := h.reaches.handovers_le
  cases h with
  | linkMember h | callMember h | calleeMember h | moreAccesses h =>
    have hle := h.handovers_le
    simp only [credit, leastCredit, frames, pending]
    omega
  | @handover _ before _ access _ hcomputed hparen =>
    have hhands : c.handsOver access = 1 := if_pos ⟨hcomputed, hparen⟩
    simp only [credit, leastCredit, frames, pending, hhands]
    omega
  | _ =>
    simp only [credit, leastCredit, frames, pending] at *
    omega

/-- A level further down needs seven frames less, which pays for those of the production. -/
theorem Nests.credit_le (h : Nests p q) :
    credit q depth c + frames p ≤ credit p (depth + 1) c := by
  cases h with
  | @operands least =>
    have hframes := frames_operands_le least
    simp only [credit, leastCredit, pending]
    omega
  | _ =>
    simp only [credit, leastCredit, pending, frames]
    omega

/-- With room for its credit a production is read as without a limit of frames. -/
theorem unfoldInRoom_agrees (fuel : Nat) : ∀ {room depth : Nat} {p : Production} {c : Cursor},
    16 * c.rest.length + rank p < fuel → credit p depth c ≤ room →
      Agrees .neverOut c (unfold fuel depth p c) (unfoldInRoom fuel room depth p c) := by
  induction fuel with
  | zero => exact fun hfuel => absurd hfuel (Nat.not_lt_zero _)
  | succ fuel ih =>
    intro room depth p c hfuel hroom
    have hframes := frames_le_leastCredit p
    have hleast : leastCredit p ≤ credit p depth c := by
      rw [credit, Nat.add_assoc]
      exact Nat.le_add_right _ _
    rw [unfold, unfoldInRoom, if_neg (by omega)]
    refine step_agrees (fun q c₁ hopens => ih ?_ ?_) fun q hnests => ?_
    · have hlength := hopens.reaches.length_le
      have hrank := rank_le q
      rcases hopens.lower with hlt | ⟨hlower, -⟩ <;> omega
    · have hcredit : credit q depth c₁ + frames p ≤ credit p depth c := hopens.credit_le
      omega
    · cases depth with
      | zero => exact Or.inr ⟨nofun, rfl⟩
      | succ below =>
        have hrank := hnests.rank_lt
        have hcredit : credit q below c + frames p ≤ credit p (below + 1) c := hnests.credit_le
        exact ih (by omega) (by omega)

end Grammar

namespace Scan

/-- With room for the credit of a text it is read as without a count. -/
theorem programInRoom_agrees {room maxDepth : Nat} {c : Cursor}
    (h : 7 * (maxDepth + 1) + 2 * Text.handovers c.rest ≤ room) :
    Agrees .neverOut c (program maxDepth c) (programInRoom room maxDepth c) := by
  rw [program, programInRoom]
  refine programOf_agrees Excuses.neverOut_unexpected (Grammar.unfoldInRoom_agrees _ ?_ ?_)
  · simp only [Grammar.fuel, Grammar.rank]
    omega
  · simp only [Grammar.credit, Grammar.leastCredit, Grammar.pending]
    omega

end Scan

namespace Expr

/-- With room for seven frames for each level, and for two for each point that hands over, the
reading does not give up, and has the result that it has without a limit of frames. -/
theorem parseInRoom_eq_some {room : Nat} {limits : Limits} {source : String}
    (h : 7 * (limits.maxDepth + 1) + 2 * Text.handovers source.toList ≤ room) :
    parseInRoom room limits source = some (parseWithin limits source) := by
  have hagrees : Agrees .neverOut (.ofString source) (program limits.maxDepth (.ofString source))
      (programInRoom room limits.maxDepth (.ofString source)) := programInRoom_agrees h
  rw [parseInRoom, parseWithin]
  cases limits.exceeded? source with
  | some limit => rfl
  | none =>
    dsimp only
    rw [EStateM.run]
    cases hrun : program limits.maxDepth (.ofString source) with
    | ok e c =>
      rw [hrun] at hagrees
      rw [hagrees.1]
    | error fault c =>
      rw [hrun] at hagrees
      obtain ⟨hfault, hroom⟩ := hagrees.resolve_left id
      rw [hroom]
      exact if_neg hfault

theorem parseInRoom_eq_some_nested :
    7 * (Limits.maxDepth ⟨none, 7⟩ + 1) + 2 * Text.handovers "f.(x)?.()".toList ≤ 60 ∧
      parseInRoom 60 ⟨none, 7⟩ "f.(x)?.()" = some (parseWithin ⟨none, 7⟩ "f.(x)?.()") :=
  ⟨by decide, parseInRoom_eq_some (by decide)⟩

end Expr

end Estree
