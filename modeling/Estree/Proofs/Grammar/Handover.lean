import Estree.Proofs.Grammar.Frames
import Estree.Proofs.Source.Lists

/-!
# Frames that no level pays for

`not_exists_room_for_levels`: no number of frames for each level is enough for all texts. In a run
of calls such as `a.().().()` every point hands over to a call that goes on with the next point, so
two frames for each of them are open at the end, and all on the same level
(`parseInRoom_handoverText`).

> `handoverRun k`: the text of so many calls without arguments, each after a point.
> `member_givesUp`, `call_givesUp`: with room for less than two frames for each call the reading
> gives up, by induction on the number of calls. Each of the two opens the other one.
> `token_givesUp`, `sequence_givesUp`: so does whatever has the run as a part, up to the whole text.

To give up is not a fault of the grammar, so it is not known to the caller what the text would have
been read as (`Scan.GivesUp`). A reading that gives up in a part gives up as a whole
(`GivesUp.bind`), and all that stands before the part is read as it always is, since more room or
less makes no difference where it is enough (`Derives.unfoldInRoom`).
-/

namespace Estree

open Scan

/-- The reading has given up. -/
def Scan.GivesUp {α : Type} (r : EStateM.Result Fault Cursor α) : Prop :=
  ∃ fault c, r = .error fault c ∧ fault.cause = .outOfFuel

/-- What comes after a scan that gives up, is not reached. -/
theorem Scan.GivesUp.bind {α β : Type} {s : Scan α} {f : α → Scan β} {c : Cursor}
    (h : GivesUp (s c)) : GivesUp ((s >>= f) c) := by
  obtain ⟨fault, c₁, hrun, hcause⟩ := h
  refine ⟨fault, c₁, ?_, hcause⟩
  show EStateM.bind s f c = _
  rw [EStateM.bind, hrun]

/-- A want of steps or room is an excuse. -/
def Excuses.wantOfFuel : Excuses where
  common _ := True
  excused := (· = .outOfFuel)
  common_of_production _ _ := trivial

namespace Grammar

variable {depth fuel room : Nat} {p : Production} {c c' : Cursor}

/-- A production gives up if it does so at one of its parts, wherever it has room for its own
frames. -/
theorem givesUp_of_step (h : ∀ fuel, frames p ≤ room →
      GivesUp (step (fun depth => unfoldInRoom fuel (room - frames p) depth) depth p c)) :
    GivesUp (unfoldInRoom fuel room depth p c) := by
  cases fuel with
  | zero => exact ⟨_, _, rfl, rfl⟩
  | succ fuel =>
    rw [unfoldInRoom, ite_run]
    split
    next => exact ⟨_, _, rfl, rfl⟩
    next hroom => exact h fuel (by omega)

/-- Unless it gives up, a reading in whatever room agrees with one that has more steps. -/
theorem unfoldInRoom_agrees_unfold (fuel : Nat) : ∀ {fuel' room depth : Nat} {p : Production}
    {c : Cursor}, fuel ≤ fuel' →
      Agrees .wantOfFuel c (unfoldInRoom fuel room depth p c) (unfold fuel' depth p c) := by
  induction fuel with
  | zero => exact fun _ => Or.inl rfl
  | succ fuel ih =>
    intro fuel' room depth p c hfuel
    obtain ⟨more, rfl⟩ := Nat.exists_eq_add_of_le' (Nat.le_of_add_left_le hfuel)
    have hmore : fuel ≤ more := Nat.le_of_succ_le_succ hfuel
    rw [unfoldInRoom, ite_run]
    split
    next => exact Or.inl rfl
    next =>
      refine step_agrees (fun q c₁ _ => ih hmore) fun q _ => ?_
      cases depth with
      | zero => exact Or.inr ⟨trivial, rfl⟩
      | succ below => exact ih hmore

/-- Whatever can be derived is read in any room, unless the reading gives up. -/
theorem Derives.unfoldInRoom {v : p.Yield} (h : Derives depth p c v c') (fuel room : Nat) :
    unfoldInRoom fuel room depth p c = .ok v c' ∨ GivesUp (unfoldInRoom fuel room depth p c) := by
  have haffords : Affords (max fuel (16 * c.rest.length + rank p + 1)) depth depth p c :=
    ⟨Nat.lt_of_succ_le (Nat.le_max_right _ _), Or.inl le_rfl⟩
  have hagrees : Agrees .wantOfFuel c (Grammar.unfoldInRoom fuel room depth p c) (.ok v c') :=
    h.unfold_eq_ok haffords ▸ unfoldInRoom_agrees_unfold fuel (Nat.le_max_left _ _)
  cases hrun : Grammar.unfoldInRoom fuel room depth p c with
  | ok a c₁ =>
    rw [hrun] at hagrees
    exact Or.inl hagrees.1.symm
  | error fault c₁ =>
    rw [hrun] at hagrees
    rcases hagrees with hcause | ⟨-, hok'⟩
    · exact Or.inr ⟨fault, c₁, rfl, hcause⟩
    · cases hok'

/-! ## A run of calls -/

/-- So many calls without arguments, each after a point. -/
def handoverRun : Nat → List Char
  | 0 => []
  | k + 1 => '.' :: '(' :: ')' :: handoverRun k

/-- Such a run after a name is no part of it. -/
theorem leadingWord_handoverRun (k : Nat) : Text.leadingWord ('a' :: handoverRun k) = ['a'] := by
  have hrest : ∀ y ∈ (handoverRun k).head?, Text.isIdentifierPart y = false := by
    cases k with
    | zero => exact nofun
    | succ k =>
      intro y hy
      cases hy
      decide
  show Text.leadingWord ('a' :: [] ++ handoverRun k) = _
  exact Text.leadingWord_append (by decide) nofun hrest

/-- A point before anything but a digit is an access. -/
theorem access?_point {x : Char} {xs : List Char} :
    Token.access? ('.' :: x :: xs) = some ⟨false, false⟩ := by
  show Token.access? ((⟨false, false⟩ : Access).text.toList ++ x :: xs) = _
  exact Token.access?_text nofun

/-- An access hands over to a call if a parenthesis follows; both take a frame. -/
theorem member_givesUp {before : Links} {rest : List Char} (hc : c.rest = '(' :: rest)
    (h : ∀ fuel, GivesUp (unfoldInRoom fuel (room - 1) depth (.call before false) (c.skip 1))) :
    GivesUp (unfoldInRoom fuel room depth (.member before ⟨false, false⟩) c) := by
  refine givesUp_of_step fun fuel _ => ?_
  refine givesUp_of_step (p := .accesses before ⟨false, false⟩) fun fuel _ => ?_
  have hblanks : c.pastBlanks = c := Cursor.pastBlanks_of_cons hc (by decide)
  have hhead : c.rest.head? = some '(' := by
    rw [hc]
    rfl
  have hopt : (before.hasOptional || false) = before.hasOptional := Bool.or_false _
  show GivesUp (accesses _ depth before ⟨false, false⟩ c)
  rw [accesses]
  dsimp only
  rw [if_neg Bool.false_ne_true, skipBlanks_bind, hblanks, takes_char_bind, if_pos hhead, hopt]
  exact h fuel

/-- A call goes on with the next access before it ends, so so many frames are open at a time. -/
theorem call_givesUp (k : Nat) : ∀ {fuel room : Nat} {before : Links} {c : Cursor},
    c.rest = '(' :: ')' :: handoverRun k → room < 2 * k + 1 →
      GivesUp (unfoldInRoom fuel room 4 (.call before false) (c.skip 1)) := by
  induction k with
  | zero =>
    intro fuel room before c _ hroom
    refine givesUp_of_step fun fuel hframes => ?_
    have hone : 1 ≤ room := hframes
    omega
  | succ k ih =>
    intro fuel room before c hc hroom
    refine givesUp_of_step fun fuel hframes => ?_
    have hnoItem : ∀ e ∈ ([] : List Expr), Source.ReadsItem 4 e := nofun
    obtain ⟨es, c₁, harguments, -, hc₁⟩ := Source.derives_arguments hnoItem (Nat.le_refl 4) hc
    show GivesUp (call _ 4 before false (c.skip 1))
    rw [call]
    have hone : frames (.call before false) = 1 := rfl
    rcases harguments.unfoldInRoom fuel (room - frames (.call before false)) with hok | hgives
    · have hblanks : c₁.pastBlanks = c₁ := Cursor.pastBlanks_of_cons hc₁ (by decide)
      have haccess : Token.access? c₁.rest = some ⟨false, false⟩ := by
        rw [hc₁]
        exact access?_point
      rw [bind_run hok, position_bind, whenAccess, here_bind, skipBlanks_bind, hblanks,
        Token.takeAccess?_bind, haccess]
      have hc₂ : (c₁.skip 1).rest = '(' :: ')' :: handoverRun k := by
        rw [Cursor.skip_rest, hc₁]
        rfl
      exact member_givesUp hc₂ fun fuel => ih hc₂ (by omega)
    · exact hgives.bind

/-- A token with such a run needs two frames for every call. -/
theorem token_givesUp {k : Nat} (hc : c.rest = 'a' :: handoverRun (k + 1))
    (hroom : room < 2 * (k + 1)) : GivesUp (unfoldInRoom fuel room 4 .token c) := by
  have hblanks : c.pastBlanks = c := Cursor.pastBlanks_of_cons hc (by decide)
  have hword : Text.leadingWord c.rest = ['a'] := by rw [hc, leadingWord_handoverRun]
  refine givesUp_of_step fun fuel hframes => ?_
  have hone : frames .token = 1 := rfl
  have hprimary : Derives 4 .primary c _ _ :=
    .primary (.word hword (List.cons_ne_nil _ _) (by decide))
  show GivesUp (token _ 4 c)
  rw [token, skipBlanks_bind, hblanks]
  rcases hprimary.unfoldInRoom fuel (room - frames .token) with hok | hgives
  · rw [bind_run hok]
    refine GivesUp.bind (givesUp_of_step fun fuel _ => ?_)
    have hrest : (c.skip 1).rest = '.' :: '(' :: ')' :: handoverRun k := by
      rw [Cursor.skip_rest, hc]
      rfl
    have hblanks' : (c.skip 1).pastBlanks = c.skip 1 := Cursor.pastBlanks_of_cons hrest (by decide)
    have haccess : Token.access? (c.skip 1).rest = some ⟨false, false⟩ := by
      rw [hrest]
      exact access?_point
    show GivesUp (links _ 4 _ (c.skip 1))
    rw [links, here_bind, skipBlanks_bind, hblanks', Token.takeAccess?_bind, haccess]
    refine GivesUp.bind ?_
    have hrest' : ((c.skip 1).skip 1).rest = '(' :: ')' :: handoverRun k := by
      rw [Cursor.skip_rest, hrest]
      rfl
    exact member_givesUp hrest' fun fuel => call_givesUp k hrest' (by omega)
  · exact hgives.bind

/-- A text that begins with a token gives up where the token does. -/
theorem sequence_givesUp {x : Char} {xs : List Char} (hc : c.rest = x :: xs)
    (hx : Text.isBlank x = false) (hop : Token.unaryOperator? c.rest = none)
    (h : ∀ fuel room', room' ≤ room → GivesUp (unfoldInRoom fuel room' (depth + 1) .token c)) :
    GivesUp (unfoldInRoom fuel room (depth + 4) (.sequence false) c) := by
  have hblanks : c.pastBlanks = c := Cursor.pastBlanks_of_cons hc hx
  refine givesUp_of_step fun fuel _ => ?_
  show GivesUp (sequence _ (depth + 4) false c)
  rw [sequence, skipBlanks_bind, hblanks, position_bind]
  dsimp only
  rw [if_neg Bool.false_ne_true]
  refine GivesUp.bind (givesUp_of_step fun fuel _ => ?_)
  refine GivesUp.bind (givesUp_of_step fun fuel _ => ?_)
  show GivesUp (unfoldInRoom _ _ (depth + 3) .conditional c)
  refine givesUp_of_step fun fuel _ => ?_
  refine GivesUp.bind (givesUp_of_step fun fuel _ => ?_)
  show GivesUp (unfoldInRoom _ _ (depth + 2) (.climb 1) c)
  refine givesUp_of_step fun fuel _ => ?_
  show GivesUp (climb _ (depth + 2) 1 c)
  rw [climb, skipBlanks_bind, hblanks, ahead_bind]
  refine GivesUp.bind (givesUp_of_step fun fuel _ => ?_)
  show GivesUp (unfoldInRoom _ _ (depth + 1) .unaryForm c)
  refine givesUp_of_step fun fuel _ => ?_
  show GivesUp (unaryForm _ (depth + 1) c)
  rw [unaryForm, skipBlanks_bind, hblanks, ahead_bind, hop]
  exact h fuel _ (by omega)

end Grammar

open Grammar

/-- The text of a name with so many calls, each after a point. -/
def Text.handoverText (k : Nat) : String := String.ofList ('a' :: handoverRun k)

/-- A whole text gives up if its run does. -/
theorem Scan.programInRoom_givesUp {k room : Nat} (h : room ≤ 2 * (k + 1)) :
    GivesUp (programInRoom room 7 (.ofString (Text.handoverText (k + 1)))) := by
  have hc : (Cursor.ofString (Text.handoverText (k + 1))).rest = 'a' :: handoverRun (k + 1) :=
    String.toList_ofList
  have hop : Token.unaryOperator? ('a' :: handoverRun (k + 1)) = none :=
    Token.unaryOperator?_of_leadingWord (leadingWord_handoverRun _) (List.cons_ne_nil _ _)
  rw [programInRoom, programOf, ahead_bind]
  refine GivesUp.bind (sequence_givesUp hc (by decide) (by rw [hc, hop]) fun fuel room' hroom => ?_)
  exact token_givesUp hc (by omega)

namespace Expr

/-- The reading of such a text gives up if it does not have room for two frames for each point, and
for one more. -/
theorem parseInRoom_handoverText {k room : Nat} (h : room ≤ 2 * (k + 1)) :
    parseInRoom room ⟨none, 7⟩ (Text.handoverText (k + 1)) = none := by
  obtain ⟨fault, c, hrun, hcause⟩ := programInRoom_givesUp h
  have hlength : (⟨none, 7⟩ : Limits).exceeded? (Text.handoverText (k + 1)) = none := rfl
  rw [parseInRoom, hlength]
  dsimp only
  rw [hrun]
  exact if_pos hcause

/-- No number of frames for each level is enough for all texts. -/
theorem not_exists_room_for_levels : ¬∃ framesPerLevel : Nat, ∀ (limits : Limits) (source : String),
    parseInRoom (framesPerLevel * (limits.maxDepth + 1)) limits source ≠ none := by
  rintro ⟨framesPerLevel, henough⟩
  have hnone : parseInRoom (framesPerLevel * (7 + 1)) ⟨none, 7⟩
      (Text.handoverText (4 * framesPerLevel + 1)) = none := parseInRoom_handoverText (by omega)
  exact henough ⟨none, 7⟩ _ hnone

end Expr

end Estree
