import LuaFront.Proofs.Fetching
import LuaFront.Proofs.Nodes
import Mathlib.Data.Fintype.EquivFin

/-!
# Holes and what they cost

Where no expression or no name can be read, a hole is left in the tree, and an error at the same
place says so: an illegal token, an unexpected symbol or a malformed number for an expression, a
missing name for a name. Readers leave holes at three occasions, and at one of them they report
nothing, as the error of an illegal token came up when the token was fetched.

So the errors are counted as funds, those to come with tokens included, and every illegal token
ahead is a due of one hole. `Pays` says that between two states the funds less the dues rose by
what the holes in between cost.

* `Steps.pays`: no step loses anything.
* `Pays.advanced`: a token that is taken pays for the hole that it leaves.
* `Pays.noting`: an error pays for the hole that it reports.
* `State.dues_ofSource_le`: in front of the first token the funds cover the dues.
-/

namespace LuaFront

/-- What is missing in a tree: an expression or a name, at a location. -/
inductive Hole where
  | exp (place : Location)
  | name (place : Location)
deriving DecidableEq, Repr

/-- The hole that an error tells about. -/
def SyntaxError.hole? (e : SyntaxError) : Option Hole :=
  match e.cause with
  | .illegalToken _ | .unexpectedSymbol _ | .malformedNumber _ => some (.exp e.location)
  | .missingName .. => some (.name e.location)
  | _ => none

/-- The error is at the place of the hole, and its code is one of those for such a hole. -/
def SyntaxError.TellsOf (e : SyntaxError) : Hole → Prop
  | .exp place => e.location = place ∧ e.cause.code ∈ ["E0001", "E0009", "E0011"]
  | .name place => e.location = place ∧ e.cause.code = "E0007"

theorem SyntaxError.tellsOf_of_hole? {e : SyntaxError} {k : Hole} (h : e.hole? = some k) :
    e.TellsOf k := by
  rcases e with ⟨cause, place⟩
  cases cause with
  | illegalToken text | unexpectedSymbol found | malformedNumber text =>
    obtain rfl := Option.some.inj h
    exact ⟨rfl, by simp [Cause.code]⟩
  | missingName after found =>
    obtain rfl := Option.some.inj h
    exact ⟨rfl, rfl⟩
  | _ => exact absurd h (Option.some_ne_none k).symm

/-- The hole that a name is if it is not valid. -/
def Ident.holes (n : Ident) : List Hole := if n.valid then [] else [.name n.location]

/-- The hole that a token leaves in a tree. -/
def Token.holes (t : Token) : List Hole :=
  match t.kind with
  | .illegal => [.exp t.location]
  | .ident => if t.valid then [] else [.name t.location]
  | _ => []

theorem Token.holes_eof {t : Token} (h : t.kind = .eof) : t.holes = [] := by
  rw [holes, h]

/-! ## Holes of a tree -/

namespace Node

/-- The hole that a node is if it stands for a missing expression. -/
def gap : Node → List Hole
  | exp (.bad place) => [.exp place]
  | _ => []

/-- The holes of a node itself. -/
def holes (n : Node) : List Hole := n.gap ++ n.idents.flatMap Ident.holes

end Node

namespace Outline

mutual

/-- The holes of all nodes. -/
def holes : Outline → List Hole
  | .mk n children => n.holes ++ allHoles children

/-- The holes of all nodes of several outlines. -/
def allHoles : List Outline → List Hole
  | [] => []
  | t :: ts => t.holes ++ allHoles ts

end

mutual

theorem flatMap_entriesFrom (ancestors : List Nat) (index : Nat) : ∀ t : Outline,
    (t.entriesFrom ancestors index).flatMap (·.node.holes) = t.holes
  | .mk n children => by
    rw [entriesFrom, List.flatMap_cons, flatMap_allEntriesFrom _ _ children, holes]

theorem flatMap_allEntriesFrom (ancestors : List Nat) (index : Nat) : ∀ ts : List Outline,
    (allEntriesFrom ancestors index ts).flatMap (·.node.holes) = allHoles ts
  | [] => rfl
  | t :: ts => by
    rw [allEntriesFrom, List.flatMap_append, flatMap_entriesFrom _ _ t,
      flatMap_allEntriesFrom _ _ ts, allHoles]

end

theorem flatMap_entries (t : Outline) : t.entries.flatMap (·.node.holes) = t.holes :=
  flatMap_entriesFrom [] 0 t

theorem allHoles_eq_flatMap (ts : List Outline) : allHoles ts = ts.flatMap holes := by
  induction ts with
  | nil => rfl
  | cons t ts ih => rw [allHoles, ih, List.flatMap_cons]

end Outline

namespace Node

/-- The holes of a node and of all nodes below it. -/
def allHoles (n : Node) : List Hole := n.outline.holes

/-- The holes below a node are those of its children. -/
theorem allHoles_eq (n : Node) : n.allHoles = n.holes ++ n.children.flatMap allHoles := by
  have node := n.node_outline
  have children := n.children_outline
  unfold allHoles
  cases h : n.outline with
  | mk m ts =>
    rw [h] at node children
    obtain rfl : m = n := node
    obtain rfl : ts = m.children.map outline := children
    rw [Outline.holes, Outline.allHoles_eq_flatMap, List.flatMap_map]

/-- Where no hole is left, no expression is missing and all names are valid. -/
theorem ne_bad {n : Node} (h : n.holes = []) (place : Location) : n ≠ exp (.bad place) := by
  rintro rfl
  exact nomatch h

theorem valid_of_mem_idents {n : Node} (h : n.holes = []) {i : Ident} (hi : i ∈ n.idents) :
    i.valid := by
  have none := List.flatMap_eq_nil_iff.1 (List.append_eq_nil_iff.1 h).2 i hi
  by_contra missing
  rw [Ident.holes, if_neg missing] at none
  exact nomatch none

/-- Where no hole is left below a node, none of the nodes below it is one. -/
theorem all_holes_eq_nil {n : Node} (h : n.allHoles = []) : n.All fun m => m.holes = [] := by
  intro m below
  induction below using Relation.ReflTransGen.head_induction_on with
  | refl =>
    rw [m.allHoles_eq] at h
    exact (List.append_eq_nil_iff.1 h).1
  | head child _ ih =>
    rw [allHoles_eq] at h
    exact ih (List.flatMap_eq_nil_iff.1 (List.append_eq_nil_iff.1 h).2 _ child)

end Node

/-- The holes of a tree, in the order of its nodes. -/
def Block.holes (b : Block) : List Hole := b.outline.entries.flatMap (·.node.holes)

theorem Block.holes_eq (b : Block) : b.holes = (b.stats.map Node.stat).flatMap Node.allHoles := by
  have all : b.holes = (Node.block b).allHoles := Outline.flatMap_entries b.outline
  rw [all, Node.allHoles_eq]
  rfl

namespace Parse

/-! ## Funds and dues -/

namespace State

/-- The holes that the errors so far tell about, and those that come up with tokens. -/
def funds (s : State) : List Hole :=
  (s.log.entries ++ s.stream.upcoming.filterMap Lexeme.fault).filterMap SyntaxError.hole?

/-- The holes that the tokens ahead leave. -/
def dues (s : State) : List Hole := s.ahead.flatMap Token.holes

end State

/-- Between two states the funds, less the dues, rose by what the holes cost. -/
def Pays (s s' : State) (holes : List Hole) : Prop :=
  ∀ k, s.funds.count k + s'.dues.count k + holes.count k ≤ s'.funds.count k + s.dues.count k

namespace Pays

variable {s s' s'' : State} {hs ks : List Hole}

theorem refl (s : State) : Pays s s [] := fun k => by simp

theorem trans (h : Pays s s' hs) (h' : Pays s' s'' ks) : Pays s s'' (hs ++ ks) := by
  intro k
  have := h k
  have := h' k
  rw [List.count_append]
  omega

theorem of_perm (h : Pays s s' hs) (perm : ks.Perm hs) : Pays s s' ks := by
  intro k
  rw [perm.count_eq]
  exact h k

theorem weaken (h : Pays s s' hs) (sub : ks.Sublist hs) : Pays s s' ks :=
  fun k => Nat.le_trans (Nat.add_le_add_left (sub.count_le k) _) (h k)

/-- An error pays for the hole that it tells about. -/
theorem noting {cause : Cause} {place : Location} (more : (s.noting cause place).Alive) :
    Pays s (s.noting cause place) (SyntaxError.hole? ⟨cause, place⟩).toList := by
  have entries : (s.noting cause place).log.entries = s.log.entries ++ [⟨cause, place⟩] :=
    (ErrorLog.entries_report_of_more more).1
  intro k
  rw [State.funds, State.funds, State.dues, State.ahead_noting, State.stream_noting, entries]
  simp only [List.filterMap_append, List.count_append, List.filterMap_cons, List.filterMap_nil]
  rw [← State.dues]
  cases SyntaxError.hole? ⟨cause, place⟩ with
  | none => simp
  | some h =>
    simp only [Option.toList_some]
    omega

/-- What comes up with the next token was in the funds already. -/
theorem funds_advanced (more : s.fetched.Alive) (k : Hole) :
    s.funds.count k ≤ s.advanced.funds.count k := by
  have entries : s.advanced.log.entries = s.log.entries ++ s.stream.next.1.fault.toList :=
    ErrorLog.entries_report?_of_more more
  rw [State.funds, State.funds, entries]
  cases hs : s.stream.upcoming with
  | nil => simp [State.upcoming_advanced_nil hs]
  | cons x xs =>
    have first : s.stream.next.1 = x := by simp [LexemeStream.next, hs]
    rw [State.upcoming_advanced_cons hs, first]
    cases hx : x.fault <;> simp [hx]

theorem funds_peeked (more : s.peeked.Alive) (k : Hole) :
    s.funds.count k ≤ s.peeked.funds.count k := by
  have entries : s.peeked.log.entries = s.log.entries ++ s.stream.peek.1.fault.toList :=
    ErrorLog.entries_report?_of_more more
  rw [State.funds, State.funds, entries]
  cases hs : s.stream.upcoming with
  | nil => simp [State.upcoming_peeked_nil hs]
  | cons x xs =>
    have first : s.stream.peek.1 = x := by simp [LexemeStream.peek, hs]
    rw [State.upcoming_peeked_cons hs, first]
    cases hx : x.fault <;> simp [hx, Lexeme.settled]

/-- A token that is taken pays for the hole that it leaves. -/
theorem advanced (ends : s.Ends) (more : s.fetched.Alive) : Pays s s.advanced s.current.holes := by
  have dues : s.current.holes ++ s.advanced.dues = s.dues := by
    cases hs : s.stream.upcoming with
    | nil =>
      have eof := ends.kind_eq_eof_iff.2 hs
      rw [State.dues, State.dues, State.ahead_advanced_nil hs, State.ahead, hs]
      simp [Token.holes_eof eof, Token.holes_eof ends.final]
    | cons x xs => simp [State.dues, State.ahead_advanced_cons hs]
  intro k
  have := funds_advanced more k
  rw [← dues, List.count_append]
  omega

theorem peeked (more : s.peeked.Alive) : Pays s s.peeked [] := by
  intro k
  have := funds_peeked more k
  rw [State.dues, State.ahead_peeked, ← State.dues, List.count_nil]
  omega

end Pays

theorem Step.pays {s s' : State} (h : Step s s') (ends : s.Ends) : Pays s s' [] := by
  cases h with
  | report place hc more => exact (Pays.noting more).weaken (List.nil_sublist _)
  | advance more => exact (Pays.advanced ends more).weaken (List.nil_sublist _)
  | peek more => exact Pays.peeked more

/-- No step loses anything. -/
theorem Steps.pays {s s' : State} (h : Steps s s') (ends : s.Ends) : Pays s s' [] := by
  induction h with
  | refl => exact .refl s
  | tail steps step ih => exact ih.trans (step.pays (Steps.ends steps ends))

end Parse

/-! ## Matching -/

/-- The number of places in a list at which a condition holds. -/
theorem card_subtype_get {α : Type} (xs : List α) (p : α → Prop) [DecidablePred p] :
    Fintype.card {i : Fin xs.length // p (xs.get i)} = xs.countP p := by
  have univ : (Finset.univ : Finset (Fin xs.length)) = (List.finRange xs.length).toFinset := by
    ext i
    simp
  rw [Fintype.card_subtype, univ, (List.nodup_finRange _).card_eq_countP]
  conv_rhs => rw [← List.map_get_finRange xs, List.countP_map]
  rfl

/-- Where each item is found in the second list at least as often as in the first one, all items of
the first list have a partner of their own. -/
theorem exists_injective_of_count_le {α β : Type} [DecidableEq α] {xs : List α} {ys : List β}
    {f : β → Option α} (h : ∀ k, xs.count k ≤ (ys.filterMap f).count k) :
    ∃ g : Fin xs.length → Fin ys.length, Function.Injective g ∧
      ∀ i, f (ys.get (g i)) = some (xs.get i) := by
  -- For each item, the places where it stands have room among the places where it is found.
  have room : ∀ k, Nonempty
      ({i : Fin xs.length // xs.get i = k} ↪ {j : Fin ys.length // f (ys.get j) = some k}) := by
    intro k
    refine Function.Embedding.nonempty_of_card_le ?_
    have found : (ys.filterMap f).count k = ys.countP (f · = some k) := by
      rw [List.count, List.countP_filterMap]
      refine List.countP_congr fun y _ => ?_
      cases f y <;> simp
    have stands : xs.count k = xs.countP (· = k) := List.countP_congr fun x _ => by simp
    rw [card_subtype_get xs (· = k), card_subtype_get ys (f · = some k), ← found, ← stands]
    exact h k
  obtain ⟨e⟩ := Classical.nonempty_pi.2 room
  have partner : ∀ i k (hi : xs.get i = k), (e (xs.get i) ⟨i, rfl⟩).1 = (e k ⟨i, hi⟩).1 := by
    rintro i _ rfl
    rfl
  refine ⟨fun i => (e (xs.get i) ⟨i, rfl⟩).1, fun i j same => ?_, fun i => (e _ ⟨i, rfl⟩).2⟩
  have same : (e (xs.get i) ⟨i, rfl⟩).1 = (e (xs.get j) ⟨j, rfl⟩).1 := same
  have equal : xs.get j = xs.get i := by
    have left := (e (xs.get i) ⟨i, rfl⟩).2
    have right := (e (xs.get j) ⟨j, rfl⟩).2
    rw [← same] at right
    exact Option.some.inj (right.symm.trans left)
  exact congrArg Subtype.val ((e _).injective (Subtype.ext (same.trans (partner j _ equal))))

/-! ## In front of the first token -/

/-- A token that leaves a hole comes with the error that tells about it. -/
theorem Source.holes_sublist {s : Source} {x : Lexeme} (h : x ∈ s.lexemes) :
    x.token.holes.Sublist (x.fault.toList.filterMap SyntaxError.hole?) := by
  obtain ⟨xs, m', eq, all⟩ := s.lexemes_eq_concat
  rw [eq] at h
  rcases List.mem_append.1 h with h | h
  · obtain ⟨m, t, ht, rfl⟩ := all x h
    unfold Token.holes
    split
    · next hk =>
      have flaw : t.flaw = some .illegal := ht.illegal hk
      simp [Margin.lexeme, flaw, Flaw.error, SyntaxError.hole?]
    · next hk =>
      have flaw : t.flaw = none := ht.ident hk
      simp [Margin.lexeme, flaw]
    · exact List.nil_sublist _
  · obtain rfl := List.mem_singleton.1 h
    exact List.nil_sublist _

/-- The errors of lexemes cover the holes that their tokens leave. -/
theorem Source.count_holes_lexemes_le {s : Source} {xs : List Lexeme} (h : ∀ x ∈ xs, x ∈ s.lexemes)
    (k : Hole) : (xs.flatMap (·.token.holes)).count k ≤
      ((xs.filterMap Lexeme.fault).filterMap SyntaxError.hole?).count k := by
  induction xs with
  | nil => exact Nat.le_refl 0
  | cons x xs ih =>
    have first := (s.holes_sublist (h x List.mem_cons_self)).count_le k
    have rest := ih fun y hy => h y (List.mem_cons_of_mem x hy)
    have split : (x :: xs).filterMap Lexeme.fault =
        x.fault.toList ++ xs.filterMap Lexeme.fault := by
      cases hx : x.fault <;> simp [hx]
    rw [split, List.flatMap_cons, List.filterMap_append, List.count_append, List.count_append]
    exact Nat.add_le_add first rest

/-- In front of the first token the funds cover the dues. -/
theorem Parse.State.dues_ofSource_le {s : Source} {m : Nat} (more : (ofSource s m).Alive)
    (k : Hole) : (ofSource s m).dues.count k ≤ (ofSource s m).funds.count k := by
  have le := s.count_holes_lexemes_le (fun _ h => h) k
  cases hs : s.lexemes with
  | nil => exact absurd hs s.lexemes_ne_nil
  | cons x xs =>
    rw [hs] at le
    rw [dues, ahead_ofSource, hs, List.flatMap_map]
    rw [ofSource_of_lexemes s m hs] at more ⊢
    have entries : (ErrorLog.report? ⟨m, [], false⟩ x.fault).entries = x.fault.toList :=
      ErrorLog.entries_report?_of_more more
    refine Nat.le_trans le (Nat.le_of_eq ?_)
    show _ = (((ErrorLog.report? ⟨m, [], false⟩ x.fault).entries ++
      xs.filterMap Lexeme.fault).filterMap SyntaxError.hole?).count k
    rw [entries]
    cases hx : x.fault <;> simp [hx]

end LuaFront
