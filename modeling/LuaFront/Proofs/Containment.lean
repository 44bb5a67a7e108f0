import LuaFront.Proofs.Limit
import LuaFront.Proofs.Placed

/-!
# Every node contains its children

Whatever errors a program has, the location of every node contains those of its children, and a
block is exactly as long as its statements. The invariant is that the node that a reader answers
never stops behind the current token, even where it stands for a token that was not taken.

* `Nested.Placing`: what readers ensure of the nodes they answer.
* `all_placed_of_rootBlock`: the nodes of every tree are in their places.
-/

namespace LuaFront.Parse

variable {o st r s s' s₁ s₂ : State}

/-- All expressions and blocks that are read one level further down fit. -/
structure Nested.Placing (o st : State) (deeper : Nested) : Prop where
  composed : deeper.Composed
  exp : ∀ limit {s}, Reached o s →
    Ensures (deeper.exp limit) s (fun e s' => Fits o st s s s' (.exp e)) fun _ => True
  block : ∀ {s}, Reached o s →
    Ensures deeper.block s (fun b s' => Lies o st s s' (.block b)) fun _ => True

/-! ## Lists -/

section Lists

variable {α : Type} {item : Parse α} {P : α → State → State → Prop}

/-- What is known of an item between two states is known between any states around them. -/
def Widens (o : State) (P : α → State → State → Prop) : Prop :=
  ∀ {x r s s' s₁}, P x s s' → Later r s → Reached o s' → Steps s' s₁ → P x r s₁

theorem all_further (widens : Widens o P) {separator : Kind} (hk : separator ≠ .eof)
    (composed : Composed item)
    (h : ∀ {s}, Reached o s → Ensures item s (fun x s' => P x s s') fun _ => True)
    (hs : Reached o s) (hr : Later r s) {xs : List α} (hxs : ∀ x ∈ xs, P x r s) :
    Ensures (further separator item xs) s (fun xs s' => ∀ x ∈ xs, P x r s') fun _ => True := by
  refine .loop_inv (I := fun xs s' => ∀ x ∈ xs, P x r s')
    (advances_furtherRound hk composed) hs.ends hxs fun xs s' steps hxs => ?_
  have hs' := hs.next steps
  refine .span_accept hs'.ordered fun t s₁ st₁ _ => ?_
  have kept : ∀ {t}, Steps s₁ t → ∀ x ∈ xs, P x r t :=
    fun st x hx => widens (hxs x hx) (.refl r) hs' (st₁.trans st)
  split
  · refine (h (hs'.next st₁)).bind fun x s₂ st₂ hx => .pure fun y hy => ?_
    rcases List.mem_append.1 hy with hy | hy
    · exact kept st₂ y hy
    · obtain rfl := List.mem_singleton.1 hy
      exact widens hx (hr.trans (hs.later (steps.trans st₁))) ((hs'.next st₁).next st₂) .refl
  · exact .pure (kept .refl)

theorem all_commaList (widens : Widens o P) (composed : Composed item)
    (h : ∀ {s}, Reached o s → Ensures item s (fun x s' => P x s s') fun _ => True)
    (hs : Reached o s) :
    Ensures (commaList item) s (fun xs s' => ∀ x ∈ xs, P x s s') fun _ => True := by
  refine (h hs).bind fun x s₁ st₁ hx => ?_
  have first : ∀ y ∈ [x], P y s s₁ := fun y hy => by
    obtain rfl := List.mem_singleton.1 hy
    exact hx
  have comma : Kind.comma ≠ .eof := nofun
  exact all_further (P := P) widens comma composed h (hs.next st₁) (hs.later st₁) first

theorem widens_lies : Widens o fun n s s' => Lies o st s s' n := Lies.widen

theorem widens_inside : Widens o fun (l : Location) s s' => Inside s s' l :=
  fun h a hs steps => h.widen a (hs.later steps)

end Lists

namespace Nested.Placing

variable {deeper : Nested} (h : deeper.Placing o st)
include h

theorem expList (hs : Reached o s) :
    Ensures deeper.expList s (fun es s' => ∀ n ∈ es.map .exp, Lies o st s s' n) fun _ => True := by
  have all := all_commaList (P := fun e s s' => Lies o st s s' (.exp e)) widens_lies
    (h.composed.exp 0) (fun hs => (h.exp 0 hs).imp fun e s' _ he => he.lies) hs
  refine all.imp fun es s' _ hes n hn => ?_
  obtain ⟨e, he, rfl⟩ := List.mem_map.1 hn
  exact hes e he

end Nested.Placing

/-! ## Expressions -/

section Expression

variable {deeper : Nested} (h : deeper.Placing o st)

theorem fits_numeral {t : Token} (spans : Spans r r s t.location) (hs : Reached o s) :
    Ensures (numeral t) s (fun e s' => Fits o st r r s' (.exp e)) fun _ => True := by
  unfold numeral
  split
  · exact .pure (.leaf nofun spans rfl)
  · exact .pure (.leaf nofun spans rfl)
  · refine (Composed.report t.location rfl).ensures s |>.bind fun _ s' steps _ => .pure ?_
    exact .leaf nofun (spans.widen (.refl r) (hs.later steps)) rfl

include h

theorem full (hs : Reached o s) :
    Ensures deeper.fullExp s (fun e s' => Fits o st s s s' (.exp e)) fun _ => True := h.exp 0 hs

theorem lies_field (hs : Reached o s) :
    Ensures (field deeper) s (fun f s' => ∀ n ∈ Node.ofField f, Lies o st s s' n)
      fun _ => True := by
  unfold field
  refine .span_accept hs.ordered fun bracket s₁ st₁ _ => ?_
  have seen := (Seen.start st hs).skip st₁
  cases bracket with
  | some bracket =>
    refine (full h seen.reached).bind fun key s₂ st₂ hkey => ?_
    have seen := seen.add st₂ hkey.lies
    refine .span_expectEnd seen.reached.ordered fun s₃ st₃ _ => ?_
    have seen := seen.skip st₃
    refine .span_expect seen.reached.ordered fun s₄ st₄ _ => ?_
    have seen := seen.skip st₄
    refine (full h seen.reached).bind fun value s₅ st₅ hvalue => .pure ?_
    exact (seen.add st₅ hvalue.lies).lies
  | none =>
    have rest : ∀ (named : Bool) {t}, Seen o st s t [] → Ensures (if named = true then (do
        let name ← advance
        let _ ← advance
        return Field.keyed (.string name.text name.location) (← deeper.fullExp))
        else (do return Field.item (← deeper.fullExp))) t
        (fun f s' => ∀ n ∈ Node.ofField f, Lies o st s s' n) fun _ => True := by
      intro named t seen
      split
      · refine .span_advance seen.reached.ordered fun s₂ st₂ hkey => ?_
        have key : Fits o st t t s₂ (.exp (.string t.current.text t.current.location)) :=
          .leaf nofun hkey rfl
        have seen := seen.add st₂ key.lies
        refine .span_advance seen.reached.ordered fun s₃ st₃ _ => ?_
        have seen := seen.skip st₃
        refine (full h seen.reached).bind fun value s₄ st₄ hvalue => .pure ?_
        exact (seen.add st₄ hvalue.lies).lies
      · refine (full h seen.reached).bind fun value s₂ st₂ hvalue => .pure ?_
        exact (seen.add st₂ hvalue.lies).lies
    rw [ensures_at?]
    split
    · exact (Composed.peek.ensures s₁).bind fun k s₂ st₂ _ => rest _ (seen.skip st₂)
    · exact rest false seen

theorem lies_fields (hs : Reached o s) :
    Ensures (fields deeper) s (fun fs s' => Seen o st s s' (fs.flatMap Node.ofField))
      fun _ => True := by
  refine .loop_inv (I := fun fs s' => Seen o st s s' (fs.flatMap Node.ofField))
    (advances_fieldRound h.composed) hs.ends (.start st hs) fun fs s₁ _ seen => ?_
  unfold fieldRound
  simp only [ensures_current]
  split
  · exact .pure seen
  · refine (lies_field h seen.reached).bind fun f s₂ st₂ hf => ?_
    have seen : Seen o st s s₂ ((fs ++ [f]).flatMap Node.ofField) := by
      rw [List.flatMap_append, List.flatMap_singleton]
      exact seen.addAll st₂ hf
    simp only [ensures_current]
    split
    · exact .span_advance seen.reached.ordered fun s₃ st₃ _ => .pure (seen.skip st₃)
    · exact .pure seen

theorem fits_table (hs : Reached o s) :
    Ensures (table deeper) s (fun e s' => Fits o st s s s' (.exp e)) fun _ => True := by
  unfold table
  refine .span_advance hs.ordered fun s₁ st₁ left => ?_
  refine (lies_fields h (hs.next st₁)).bind fun fs s₂ st₂ seen => ?_
  refine .span_expectEnd seen.reached.ordered fun s₃ st₃ right => .pure ?_
  exact seen.enclosed left right st₃ nofun rfl fun c hc => hc

theorem fits_functionBody {start : Location} {isMethod : Bool} (left : Spans r r s start)
    (hs : Reached o s) :
    Ensures (functionBody deeper start isMethod) s (fun e s' => Fits o st r s s' (.exp e))
      fun _ => True := by
  unfold functionBody
  refine .span_expect hs.ordered fun s₁ st₁ _ => ?_
  have seen := (Seen.start st hs).skip st₁
  refine (composed_params.ensures s₁).bind fun ps s₂ st₂ _ => ?_
  have seen := seen.skip st₂
  refine .span_expectEnd seen.reached.ordered fun s₃ st₃ _ => ?_
  have seen := seen.skip st₃
  refine (h.block seen.reached).bind fun body s₄ st₄ hbody => ?_
  have seen := seen.add st₄ hbody
  refine .span_expectEnd seen.reached.ordered fun s₅ st₅ right => .pure ?_
  exact seen.fits_behind left right (left.later.trans seen.later) st₅ nofun rfl
    fun c hc => .inl hc

/-- What is known of arguments: their location lies behind that of what stands before them, and each
of them is part of it. -/
structure ArgumentsFit (o st r s : State) (before : Location) (args : List Exp × Location) :
    Prop where
  inside : Inside r s args.2
  behind : before.stop ≤ args.2.stop
  parts : ∀ n ∈ args.1.map .exp, Part o st s args.2 n

theorem fits_arguments {before : Location} (hb : Inside r s before) (hr : Later r s)
    (hs : Reached o s) :
    Ensures (arguments deeper before) s (fun args s' => ArgumentsFit o st r s' before args)
      fun _ => True := by
  have behind : ∀ {s' place}, Spans s s s' place → before.stop ≤ place.stop :=
    fun spans => le_trans hb.last spans.covers
  unfold arguments
  rw [ensures_current]
  split
  · refine .span_advance hs.ordered fun s₁ st₁ left => ?_
    have rest : ∀ {args : List Exp} {s₂}, Seen o st s₁ s₂ (args.map .exp) → Ensures (do
        let close ← expectEnd .rightParen .leftParen s.current.location
        pure (args, s.current.location.cover close.location)) s₂
        (fun args s' => ArgumentsFit o st r s' before args) fun _ => True := by
      intro args s₂ seen
      refine .span_expectEnd seen.reached.ordered fun s₃ st₃ right => .pure ?_
      have later : Later s s₂ := left.later.trans seen.later
      have spans := (left.widen (.refl s) (seen.later.trans right.later)).cover
        (right.toInside.widen later (.refl s₃))
      refine ⟨spans.toInside.widen hr (.refl s₃), behind spans, fun n hn => ?_⟩
      exact seen.part left right st₃ hn
    have seen := Seen.start st (hs.next st₁)
    rw [ensures_at?]
    split
    · exact rest seen
    · exact (h.expList seen.reached).bind fun args s₂ st₂ hargs => rest (seen.addAll st₂ hargs)
  · refine (fits_table h hs).bind fun t s₁ st₁ ht => .pure ?_
    refine ⟨ht.spans.toInside.widen hr (.refl s₁), behind ht.spans, fun n hn => ?_⟩
    obtain rfl := List.mem_singleton.1 hn
    exact ht.part
  · refine .span_advance hs.ordered fun s₁ st₁ spans => .pure ?_
    refine ⟨spans.toInside.widen hr (.refl s₁), behind spans, fun n hn => ?_⟩
    obtain rfl := List.mem_singleton.1 hn
    exact (Fits.leaf (by simp) spans rfl : Fits o st s s s₁ (.exp (.string _ _))).part
  · simp only [ensures_found, ensures_current]
    refine (Composed.report s.current.location rfl).ensures s |>.bind fun _ s₁ st₁ _ => .pure ?_
    exact ⟨hb.widen (.refl r) (hs.later st₁), le_refl _, by simp⟩

theorem fits_primary (hs : Reached o s) :
    Ensures (primary deeper) s (fun e s' => Fits o st s s s' (.exp e)) fun _ => True := by
  unfold primary
  rw [ensures_current]
  split
  · exact .span_advance hs.ordered fun s₁ st₁ spans => .pure (.leaf nofun spans rfl)
  · refine .span_advance hs.ordered fun s₁ st₁ left => ?_
    refine (full h (hs.next st₁)).bind fun inner s₂ st₂ hinner => ?_
    have seen := (Seen.start st (hs.next st₁)).add st₂ hinner.lies
    refine .span_expectEnd seen.reached.ordered fun s₃ st₃ right => .pure ?_
    split
    · exact seen.enclosed left right st₃ nofun rfl fun c hc => hc
    · exact (hinner.widen left.later seen.reached st₃).weaken left.later
  · have bad : ∀ {t}, Steps s t → Fits o st s s t (.exp (.bad s.current.location)) :=
      fun steps => .leaf nofun (.current hs.ordered (hs.later steps)) rfl
    have rest : ∀ {t}, Steps s t → Ensures (do
        unless s.current.kind.isBlockEnd do let _ ← advance
        pure (Exp.bad s.current.location)) t (fun e s' => Fits o st s s s' (.exp e))
        fun _ => True := by
      intro t steps
      refine .ite (fun _ => .pure (bad steps)) fun _ => ?_
      exact (Composed.advance.ensures t).bind fun _ t' st' _ => .pure (bad (steps.trans st'))
    refine .ite (fun _ => rest .refl) fun _ => ?_
    exact ((Composed.report s.current.location rfl).ensures s).bind fun _ t steps _ => rest steps

/-- Arguments behind an operand are those of a call that spans both. -/
theorem fits_callSuffix {e : Exp} {method : Option Exp} {before : Location} {t : State}
    (he : Fits o st r r s (.exp e)) (hr : Later r s) (hs : Reached o s) (steps : Steps s t)
    (hb : Inside r t before)
    (hm : ∀ {s' place}, Steps t s' → before.stop ≤ place.stop → ∀ m ∈ method,
      Part o st s' (e.place.cover place) (.exp m)) :
    Ensures (do
      let args ← arguments deeper before
      pure (Round.again (Exp.call e method args.1 (e.place.cover args.2)))) t
      (Round.Post (fun e s' => Fits o st r r s' (.exp e)) fun e s' => Fits o st r r s' (.exp e))
      fun _ => True := by
  have ht := hs.next steps
  refine (fits_arguments h hb (hr.trans (hs.later steps)) ht).bind fun args s₁ st₁ hargs => ?_
  refine .pure (he.grow hs (steps.trans st₁) hargs.inside (by simp) rfl fun c hc => ?_)
  rcases List.mem_cons.1 hc with rfl | hc
  · exact .inl rfl
  rcases List.mem_append.1 hc with hc | hc
  · obtain ⟨m, hmem, rfl⟩ := List.mem_map.1 hc
    exact .inr (hm st₁ hargs.behind m (Option.mem_toList.1 hmem))
  · exact .inr ((hargs.parts c hc).widen (Location.contains_cover_right _ _) .refl)

theorem fits_suffix {e : Exp} (he : Fits o st r r s (.exp e)) (hr : Later r s) (hs : Reached o s) :
    Ensures (suffix deeper e) s
      (Round.Post (fun e s' => Fits o st r r s' (.exp e)) fun e s' => Fits o st r r s' (.exp e))
      fun _ => True := by
  have here := (Spans.current hs.ordered (.refl s)).toInside.widen hr (.refl s)
  unfold suffix
  rw [ensures_current]
  split
  · refine .span_advance hs.ordered fun s₁ st₁ left => ?_
    refine .span_expectName (hs.next st₁).ordered fun name s₂ st₂ hname => .pure ?_
    have key : Fits o st s₁ s₁ s₂ (.exp (nameKey name)) := .leaf (by simp) hname rfl
    have inside := hname.toInside.widen (hr.trans left.later) (.refl s₂)
    refine he.grow hs (st₁.trans st₂) inside (by simp) rfl fun c hc => ?_
    rcases List.mem_cons.1 hc with rfl | hc
    · exact .inl rfl
    · obtain rfl := List.mem_singleton.1 hc
      exact .inr (key.part.widen (Location.contains_cover_right _ _) .refl)
  · refine .span_advance hs.ordered fun s₁ st₁ left => ?_
    refine (full h (hs.next st₁)).bind fun key s₂ st₂ hkey => ?_
    have seen := (Seen.start st hs).skip st₁ |>.add st₂ hkey.lies
    refine .span_expectEnd seen.reached.ordered fun s₃ st₃ right => .pure ?_
    have inside := right.toInside.widen (hr.trans seen.later) (.refl s₃)
    refine he.grow hs ((st₁.trans st₂).trans st₃) inside (by simp) rfl fun c hc => ?_
    rcases List.mem_cons.1 hc with rfl | hc
    · exact .inl rfl
    · exact .inr (seen.part he.spans right st₃ hc)
  · refine .span_advance hs.ordered fun s₁ st₁ left => ?_
    refine .span_expectName (hs.next st₁).ordered fun name s₂ st₂ hname => ?_
    have key : Fits o st s₁ s₁ s₂ (.exp (nameKey name)) := .leaf (by simp) hname rfl
    have inside := hname.toInside.widen (hr.trans left.later) (.refl s₂)
    refine fits_callSuffix h he hr hs (st₁.trans st₂) inside ?_
    rintro s' place st' behind m ⟨⟩
    refine ⟨(Location.contains_iff _ _).2 ⟨?_, ?_⟩, fun k => key.placed (st'.trans k)⟩
    · have reached := le_trans he.spans.reached (le_trans left.later.start hname.first)
      exact le_trans (min_le_left _ _) reached
    · exact le_trans behind (le_max_right _ _)
  · exact fits_callSuffix h he hr hs .refl here fun _ _ _ hm => nomatch hm
  · exact fits_callSuffix h he hr hs .refl here fun _ _ _ hm => nomatch hm
  · exact fits_callSuffix h he hr hs .refl here fun _ _ _ hm => nomatch hm
  · exact .pure he

theorem fits_suffixed (hs : Reached o s) :
    Ensures (suffixed deeper) s (fun e s' => Fits o st s s s' (.exp e)) fun _ => True := by
  refine (fits_primary h hs).bind fun e s₁ st₁ he => ?_
  have hs₁ := hs.next st₁
  refine .loop_inv (I := fun e s' => Fits o st s s s' (.exp e)) (advances_suffix h.composed)
    hs₁.ends he fun e s₂ st₂ he => ?_
  exact fits_suffix h he (hs.later (st₁.trans st₂)) (hs₁.next st₂)

theorem fits_simple (hs : Reached o s) :
    Ensures (simple deeper) s (fun e s' => Fits o st s s s' (.exp e)) fun _ => True := by
  unfold simple
  rw [ensures_current]
  split
  · exact .span_advance hs.ordered fun s₁ st₁ spans => .pure (.leaf nofun spans rfl)
  · exact .span_advance hs.ordered fun s₁ st₁ spans => .pure (.leaf nofun spans rfl)
  · exact .span_advance hs.ordered fun s₁ st₁ spans => .pure (.leaf nofun spans rfl)
  · exact .span_advance hs.ordered fun s₁ st₁ spans => .pure (.leaf nofun spans rfl)
  · exact .span_advance hs.ordered fun s₁ st₁ spans => fits_numeral spans (hs.next st₁)
  · exact .span_advance hs.ordered fun s₁ st₁ spans => .pure (.leaf nofun spans rfl)
  · exact fits_table h hs
  · refine .span_advance hs.ordered fun s₁ st₁ left => ?_
    refine (fits_functionBody h (left.weaken (.refl s)) (hs.next st₁)).imp fun e s₂ st₂ he => ?_
    exact he.weaken left.later
  · exact fits_suffixed h hs

theorem fits_operand (hs : Reached o s) :
    Ensures (operand deeper) s (fun e s' => Fits o st s s s' (.exp e)) fun _ => True := by
  unfold operand
  rw [ensures_current]
  split
  · refine .span_advance hs.ordered fun s₁ st₁ left => ?_
    refine (h.exp _ (hs.next st₁)).bind fun e s₂ st₂ he => .pure ?_
    refine (Seen.start st (hs.next st₁)).fits left he.spans left.later st₂ nofun rfl fun c hc => ?_
    obtain rfl := List.mem_singleton.1 hc
    exact .inr he.part
  · exact fits_simple h hs

theorem fits_operation {limit : Nat} {lhs : Exp} (hl : Fits o st r r s (.exp lhs))
    (hr : Later r s) (hs : Reached o s) :
    Ensures (operation deeper limit lhs) s
      (Round.Post (fun e s' => Fits o st r r s' (.exp e)) fun e s' => Fits o st r r s' (.exp e))
      fun _ => True := by
  unfold operation
  rw [ensures_current]
  split
  · split
    · exact .pure hl
    · refine .span_advance hs.ordered fun s₁ st₁ left => ?_
      refine (h.exp _ (hs.next st₁)).bind fun rhs s₂ st₂ hrhs => .pure ?_
      have inside := hrhs.spans.toInside.widen (hr.trans left.later) (.refl s₂)
      refine hl.grow hs (st₁.trans st₂) inside nofun rfl fun c hc => ?_
      rcases List.mem_cons.1 hc with rfl | hc
      · exact .inl rfl
      · obtain rfl := List.mem_singleton.1 hc
        exact .inr (hrhs.part.widen (Location.contains_cover_right _ _) .refl)
  · exact .pure hl

theorem fits_subexpression (limit : Nat) (hs : Reached o s) :
    Ensures (subexpression deeper limit) s (fun e s' => Fits o st s s s' (.exp e))
      fun _ => True := by
  refine (fits_operand h hs).bind fun e s₁ st₁ he => ?_
  have hs₁ := hs.next st₁
  refine .loop_inv (I := fun e s' => Fits o st s s s' (.exp e))
    (advances_operation h.composed limit) hs₁.ends he fun e s₂ st₂ he => ?_
  exact fits_operation h he (hs.later (st₁.trans st₂)) (hs₁.next st₂)

end Expression

/-! ## Statements -/

section Statement

variable {deeper : Nested} (h : deeper.Placing o st)

theorem fits_gotoStat (hs : Reached o s) :
    Ensures gotoStat s (fun x s' => Fits o st s s s' (.stat x)) fun _ => True := by
  unfold gotoStat
  refine .span_advance hs.ordered fun s₁ st₁ left => ?_
  have seen := Seen.start st (hs.next st₁)
  refine .span_expectName seen.reached.ordered fun name s₂ st₂ right => .pure ?_
  exact seen.enclosed left right st₂ nofun rfl nofun

theorem fits_labelStat (hs : Reached o s) :
    Ensures labelStat s (fun x s' => Fits o st s s s' (.stat x)) fun _ => True := by
  unfold labelStat
  refine .span_advance hs.ordered fun s₁ st₁ left => ?_
  have seen := Seen.start st (hs.next st₁)
  refine .span_expectName seen.reached.ordered fun name s₂ st₂ _ => ?_
  have seen := seen.skip st₂
  refine .span_expect seen.reached.ordered fun s₃ st₃ right => .pure ?_
  exact seen.enclosed left right st₃ nofun rfl nofun

theorem fits_functionTarget {first : Ident} (hf : Spans r r s first.location) (hs : Reached o s) :
    Ensures (functionTarget first) s (fun target s' => Fits o st r r s' (.exp target.1))
      fun _ => True := by
  refine .loop_inv (I := fun target s' => Fits o st r r s' (.exp target.1)) advances_targetRound
    hs.ends (.leaf (by simp) hf rfl) fun target s₁ st₁ ht => ?_
  have hs₁ := hs.next st₁
  unfold targetRound
  simp only [ensures_current]
  split
  · refine .span_advance hs₁.ordered fun s₂ st₂ left => ?_
    refine .span_expectName (hs₁.next st₂).ordered fun name s₃ st₃ hname => .pure ?_
    have key : Fits o st s₂ s₂ s₃ (.exp (nameKey name)) := .leaf (by simp) hname rfl
    have later : Later r s₂ := hf.later.trans ((hs.later st₁).trans left.later)
    have inside := hname.toInside.widen later (.refl s₃)
    have field : Fits o st r r s₃
        (.exp (.index target.1 (nameKey name) (target.1.place.cover name.location))) := by
      refine ht.grow hs₁ (st₂.trans st₃) inside (by simp) rfl fun c hc => ?_
      rcases List.mem_cons.1 hc with rfl | hc
      · exact .inl rfl
      · obtain rfl := List.mem_singleton.1 hc
        exact .inr (key.part.widen (Location.contains_cover_right _ _) .refl)
    split
    · exact field
    · exact field
  · exact .pure ht

theorem inside_attrib {opener : Location} (hs : Reached o s) :
    Ensures (attrib opener) s (fun v s' => Inside s s' v.2) fun _ => True := by
  unfold attrib
  refine .span_expectName hs.ordered fun name s₁ st₁ _ => ?_
  have rest : ∀ {t}, Steps s t → Ensures (do
      let close ← expectEnd .greater .less opener
      pure (Attribute.ofName? name.text, close.location)) t (fun v s' => Inside s s' v.2)
      fun _ => True := fun steps =>
    .span_expectEnd (hs.next steps).ordered fun s₂ st₂ right =>
      .pure (right.toInside.widen (hs.later steps) (.refl s₂))
  refine .ite (fun _ => ?_) fun _ => rest st₁
  exact ((Composed.report name.location rfl).ensures s₁).bind fun _ t steps _ =>
    rest (st₁.trans steps)

theorem inside_localName (hs : Reached o s) :
    Ensures localName s (fun name s' => Inside s s' name.2) fun _ => True := by
  unfold localName
  refine .span_expectName hs.ordered fun name s₁ st₁ hname => ?_
  have hs₁ := hs.next st₁
  refine .span_accept hs₁.ordered fun opener s₂ st₂ _ => ?_
  have hs₂ := hs₁.next st₂
  have here := hname.toInside.widen (.refl s) (hs₁.later st₂)
  cases opener with
  | some opener =>
    refine (inside_attrib hs₂).bind fun v s₃ st₃ hv => .pure ?_
    have later : Later s s₂ := hs.later (st₁.trans st₂)
    exact (here.widen (.refl s) (hs₂.later st₃)).cover (hv.widen later (.refl s₃))
  | none => exact .pure here

include h

theorem fits_scopeStat (hs : Reached o s) :
    Ensures (scopeStat deeper) s (fun x s' => Fits o st s s s' (.stat x)) fun _ => True := by
  unfold scopeStat
  refine .span_advance hs.ordered fun s₁ st₁ left => ?_
  have seen := Seen.start st (hs.next st₁)
  refine (h.block seen.reached).bind fun body s₂ st₂ hbody => ?_
  have seen := seen.add st₂ hbody
  refine .span_expectEnd seen.reached.ordered fun s₃ st₃ right => .pure ?_
  exact seen.enclosed left right st₃ nofun rfl fun c hc => hc

theorem fits_whileStat (hs : Reached o s) :
    Ensures (whileStat deeper) s (fun x s' => Fits o st s s s' (.stat x)) fun _ => True := by
  unfold whileStat
  refine .span_advance hs.ordered fun s₁ st₁ left => ?_
  have seen := Seen.start st (hs.next st₁)
  refine (full h seen.reached).bind fun condition s₂ st₂ hcondition => ?_
  have seen := seen.add st₂ hcondition.lies
  refine .span_expect seen.reached.ordered fun s₃ st₃ _ => ?_
  have seen := seen.skip st₃
  refine (h.block seen.reached).bind fun body s₄ st₄ hbody => ?_
  have seen := seen.add st₄ hbody
  refine .span_expectEnd seen.reached.ordered fun s₅ st₅ right => .pure ?_
  exact seen.enclosed left right st₅ nofun rfl fun c hc => hc

theorem fits_repeatStat (hs : Reached o s) :
    Ensures (repeatStat deeper) s (fun x s' => Fits o st s s s' (.stat x)) fun _ => True := by
  unfold repeatStat
  refine .span_advance hs.ordered fun s₁ st₁ left => ?_
  have seen := Seen.start st (hs.next st₁)
  refine (h.block seen.reached).bind fun body s₂ st₂ hbody => ?_
  have seen := seen.add st₂ hbody
  refine .span_expectEnd seen.reached.ordered fun s₃ st₃ _ => ?_
  have seen := seen.skip st₃
  refine (full h seen.reached).bind fun condition s₄ st₄ hcondition => .pure ?_
  refine seen.fits left hcondition.spans (left.later.trans seen.later) st₄ nofun rfl fun c hc => ?_
  rcases List.mem_cons.1 hc with rfl | hc
  · exact .inl List.mem_cons_self
  · obtain rfl := List.mem_singleton.1 hc
    exact .inr hcondition.part

theorem lies_clause (hs : Reached o s) :
    Ensures (clause deeper) s (fun c s' => ∀ n ∈ Node.ofClause c, Lies o st s s' n)
      fun _ => True := by
  unfold clause
  refine (full h hs).bind fun condition s₁ st₁ hcondition => ?_
  have seen := (Seen.start st hs).add st₁ hcondition.lies
  refine .span_expect seen.reached.ordered fun s₂ st₂ _ => ?_
  have seen := seen.skip st₂
  refine (h.block seen.reached).bind fun body s₃ st₃ hbody => .pure ?_
  exact (seen.add st₃ hbody).lies

theorem seen_elseifs (hs : Reached o s) {first : Clause} (hr : Later r s)
    (hf : ∀ n ∈ Node.ofClause first, Lies o st r s n) :
    Ensures (elseifs deeper first) s (fun cs s' => ∀ n ∈ cs.flatMap Node.ofClause, Lies o st r s' n)
      fun _ => True := by
  have one : ∀ c ∈ [first], ∀ n ∈ Node.ofClause c, Lies o st r s n := fun c hc => by
    obtain rfl := List.mem_singleton.1 hc
    exact hf
  have all := all_further (P := fun c s s' => ∀ n ∈ Node.ofClause c, Lies o st s s' n)
    (fun hc a ht steps n hn => (hc n hn).widen a ht steps)
    (by simp : Kind.kwElseif ≠ .eof) (composed_clause h.composed) (lies_clause h) hs hr one
  refine all.imp fun cs s' _ hcs n hn => ?_
  obtain ⟨c, hc, hn⟩ := List.mem_flatMap.1 hn
  exact hcs c hc n hn

theorem fits_branchStat (hs : Reached o s) :
    Ensures (branchStat deeper) s (fun x s' => Fits o st s s s' (.stat x)) fun _ => True := by
  unfold branchStat
  refine .span_advance hs.ordered fun s₁ st₁ left => ?_
  have hs₁ := hs.next st₁
  refine (lies_clause h hs₁).bind fun first s₂ st₂ hfirst => ?_
  have hs₂ := hs₁.next st₂
  refine (seen_elseifs h hs₂ (hs₁.later st₂) hfirst).bind fun clauses s₃ st₃ hclauses => ?_
  have seen : Seen o st s₁ s₃ (clauses.flatMap Node.ofClause) :=
    ⟨hs₂.next st₃, hs₁.later (st₂.trans st₃), hclauses⟩
  refine .span_accept seen.reached.ordered fun t s₄ st₄ _ => ?_
  have seen := seen.skip st₄
  have rest : ∀ {otherwise : Option Block} {s₅},
      Seen o st s₁ s₅ (clauses.flatMap Node.ofClause ++ otherwise.toList.map .block) → Ensures (do
        let close ← expectEnd .kwEnd .kwIf s.current.location
        pure (Stat.branch clauses otherwise (s.current.location.cover close.location))) s₅
        (fun x s' => Fits o st s s s' (.stat x)) fun _ => True := by
    intro otherwise s₅ seen
    refine .span_expectEnd seen.reached.ordered fun s₆ st₆ right => .pure ?_
    exact seen.enclosed left right st₆ nofun rfl fun c hc => hc
  refine .ite (fun _ => ?_) fun _ => rest (seen.addAll .refl nofun)
  have body : Ensures (some <$> deeper.block) s₄
      (fun b s' => ∀ n ∈ b.toList.map .block, Lies o st s₄ s' n) fun _ => True :=
    .map ((h.block seen.reached).imp fun b s₅ _ hb n hn => by
      obtain rfl := List.mem_singleton.1 hn
      exact hb)
  exact body.bind fun otherwise s₅ st₅ hotherwise => rest (seen.addAll st₅ hotherwise)

theorem fits_numericForStat {opener : Location} {var : Ident} (left : Spans r r s opener)
    (hs : Reached o s) :
    Ensures (numericForStat deeper opener var) s (fun x s' => Fits o st r r s' (.stat x))
      fun _ => True := by
  unfold numericForStat
  refine (full h hs).bind fun start s₁ st₁ hstart => ?_
  have seen := (Seen.start st hs).add st₁ hstart.lies
  refine .span_expect seen.reached.ordered fun s₂ st₂ _ => ?_
  have seen := seen.skip st₂
  refine (full h seen.reached).bind fun limit s₃ st₃ hlimit => ?_
  have seen := seen.add st₃ hlimit.lies
  refine .span_accept seen.reached.ordered fun t s₄ st₄ _ => ?_
  have seen := seen.skip st₄
  have rest : ∀ {step : Option Exp} {s₅},
      Seen o st s s₅ ([.exp start, .exp limit] ++ step.toList.map .exp) → Ensures (do
        let _ ← expect .kwDo
        let body ← deeper.block
        let close ← expectEnd .kwEnd .kwFor opener
        pure (Stat.numericFor var start limit step body (opener.cover close.location))) s₅
        (fun x s' => Fits o st r r s' (.stat x)) fun _ => True := by
    intro step s₅ seen
    refine .span_expect seen.reached.ordered fun s₆ st₆ _ => ?_
    have seen := seen.skip st₆
    refine (h.block seen.reached).bind fun body s₇ st₇ hbody => ?_
    have seen := seen.add st₇ hbody
    refine .span_expectEnd seen.reached.ordered fun s₈ st₈ right => .pure ?_
    exact seen.enclosed left right st₈ (by simp) rfl fun c hc => by
      simpa [Node.children] using hc
  refine .ite (fun _ => ?_) fun _ => rest (seen.addAll .refl (by simp))
  have stepped : Ensures (some <$> deeper.fullExp) s₄
      (fun e s' => ∀ n ∈ e.toList.map .exp, Lies o st s₄ s' n) fun _ => True :=
    .map ((full h seen.reached).imp fun e s₅ _ he n hn => by
      obtain rfl := List.mem_singleton.1 hn
      exact he.lies)
  exact stepped.bind fun step s₅ st₅ hstep => rest (seen.addAll st₅ hstep)

theorem fits_genericForStat {opener : Location} {first : Ident} (left : Spans r r s opener)
    (hs : Reached o s) :
    Ensures (genericForStat deeper opener first) s (fun x s' => Fits o st r r s' (.stat x))
      fun _ => True := by
  unfold genericForStat
  refine ((composed_moreNames first).ensures s).bind fun names s₁ st₁ _ => ?_
  have seen := (Seen.start st hs).skip st₁
  refine .span_expect seen.reached.ordered fun s₂ st₂ _ => ?_
  have seen := seen.skip st₂
  refine (h.expList seen.reached).bind fun exps s₃ st₃ hexps => ?_
  have seen := seen.addAll st₃ hexps
  refine .span_expect seen.reached.ordered fun s₄ st₄ _ => ?_
  have seen := seen.skip st₄
  refine (h.block seen.reached).bind fun body s₅ st₅ hbody => ?_
  have seen := seen.add st₅ hbody
  refine .span_expectEnd seen.reached.ordered fun s₆ st₆ right => .pure ?_
  exact seen.enclosed left right st₆ nofun rfl fun c hc => hc

theorem fits_forStat (hs : Reached o s) :
    Ensures (forStat deeper) s (fun x s' => Fits o st s s s' (.stat x)) fun _ => True := by
  unfold forStat
  refine .span_advance hs.ordered fun s₁ st₁ left => ?_
  have hs₁ := hs.next st₁
  refine .span_expectName hs₁.ordered fun first s₂ st₂ _ => ?_
  have hs₂ := hs₁.next st₂
  refine .span_accept hs₂.ordered fun t s₃ st₃ _ => ?_
  have left := left.widen (.refl s) (hs₁.later (st₂.trans st₃))
  refine .ite (fun _ => ?_) fun _ => ?_
  · exact fits_numericForStat h left (hs₂.next st₃)
  · exact fits_genericForStat h left (hs₂.next st₃)

theorem fits_functionStat (hs : Reached o s) :
    Ensures (functionStat deeper) s (fun x s' => Fits o st s s s' (.stat x)) fun _ => True := by
  unfold functionStat
  refine .span_advance hs.ordered fun s₁ st₁ left => ?_
  have hs₁ := hs.next st₁
  refine .span_expectName hs₁.ordered fun first s₂ st₂ hfirst => ?_
  have hs₂ := hs₁.next st₂
  have target : Ensures (functionTarget first) s₂
      (fun target s' => Fits o st s₁ s₁ s' (.exp target.1)) fun _ => True :=
    fits_functionTarget hfirst hs₂
  refine target.bind fun target s₃ st₃ htarget => ?_
  have seen := (Seen.start st hs₁).add (st₂.trans st₃) htarget.lies
  refine (fits_functionBody h (left.widen (.refl s) seen.later) seen.reached).bind
    fun value s₄ st₄ hvalue => .pure ?_
  refine seen.fits left hvalue.spans (.refl s) st₄ nofun rfl fun c hc => ?_
  rcases List.mem_cons.1 hc with rfl | hc
  · exact .inl List.mem_cons_self
  · obtain rfl := List.mem_singleton.1 hc
    exact .inr hvalue.part

theorem fits_localFunctionStat {opener : Location} (left : Spans r r s opener)
    (hs : Reached o s) :
    Ensures (localFunctionStat deeper opener) s (fun x s' => Fits o st r r s' (.stat x))
      fun _ => True := by
  unfold localFunctionStat
  refine .span_advance hs.ordered fun s₁ st₁ start => ?_
  have hs₁ := hs.next st₁
  refine .span_expectName hs₁.ordered fun name s₂ st₂ _ => ?_
  have seen := (Seen.start st hs).skip (st₁.trans st₂)
  refine (fits_functionBody h (start.widen (.refl s) (hs₁.later st₂)) seen.reached).bind
    fun value s₃ st₃ hvalue => .pure ?_
  refine seen.fits left hvalue.spans left.later st₃ nofun rfl fun c hc => ?_
  obtain rfl := List.mem_singleton.1 hc
  exact .inr hvalue.part

theorem fits_localsStat {opener : Location} (left : Spans r r s opener) (hs : Reached o s) :
    Ensures (localsStat deeper opener) s (fun x s' => Fits o st r r s' (.stat x))
      fun _ => True := by
  unfold localsStat
  have names := all_commaList (P := fun name s s' => Inside s s' name.2) widens_inside
    composed_localName inside_localName hs
  refine names.bind fun names s₁ st₁ hnames => ?_
  have hs₁ := hs.next st₁
  refine .span_accept hs₁.ordered fun t s₂ st₂ _ => ?_
  have seen := (Seen.start st hs).skip (st₁.trans st₂)
  have rest : ∀ {values : List Exp} {s₃}, Steps s₂ s₃ → Seen o st s s₃ (values.map .exp) →
      Fits o st r r s₃ (.stat (.locals (names.map (·.1)) values
        (opener.coverAll (names.map (·.2) ++ values.map Exp.place)))) := by
    intro values s₃ st₃ seen
    have spans := left.widen (.refl r) seen.later
    refine .node nofun (spans.coverAll fun m hm => ?_) fun c hc => ?_
    · rcases List.mem_append.1 hm with hm | hm
      · obtain ⟨name, hname, rfl⟩ := List.mem_map.1 hm
        exact (hnames name hname).widen left.later (hs₁.later (st₂.trans st₃))
      · obtain ⟨value, hvalue, rfl⟩ := List.mem_map.1 hm
        have lies := seen.lies _ (List.mem_map_of_mem hvalue)
        exact lies.inside.widen left.later (.refl s₃)
    · obtain ⟨value, hvalue, rfl⟩ := List.mem_map.1 hc
      refine (seen.lies _ hc).part (Location.contains_coverAll_of_mem ?_ opener) .refl
      exact List.mem_append_right _ (List.mem_map_of_mem hvalue)
  refine .ite (fun _ => ?_) fun _ => .pure (rest .refl seen)
  exact (h.expList seen.reached).bind fun values s₃ st₃ hvalues =>
    .pure (rest st₃ (seen.addAll st₃ hvalues))

theorem fits_localStat (hs : Reached o s) :
    Ensures (localStat deeper) s (fun x s' => Fits o st s s s' (.stat x)) fun _ => True := by
  unfold localStat
  refine .span_advance hs.ordered fun s₁ st₁ left => ?_
  rw [ensures_at?]
  refine .ite (fun _ => ?_) fun _ => ?_
  · exact fits_localFunctionStat h left (hs.next st₁)
  · exact fits_localsStat h left (hs.next st₁)

theorem fits_assignStat {first : Exp} (hf : Fits o st r r s (.exp first)) (hr : Later r s)
    (hs : Reached o s) :
    Ensures (assignStat deeper first) s (fun x s' => Fits o st r r s' (.stat x))
      fun _ => True := by
  unfold assignStat
  have one : ∀ e ∈ [first], Lies o st r s (.exp e) := fun e he => by
    obtain rfl := List.mem_singleton.1 he
    exact hf.lies
  have targets := all_further (P := fun e s s' => Lies o st s s' (.exp e)) widens_lies
    (by simp : Kind.comma ≠ .eof) (composed_suffixed h.composed)
    (fun hs => (fits_suffixed h hs).imp fun e s' _ he => he.lies) hs hr one
  refine targets.bind fun targets s₁ st₁ htargets => ?_
  have seen : Seen o st r s₁ (targets.map .exp) := by
    refine ⟨hs.next st₁, hr.trans (hs.later st₁), fun n hn => ?_⟩
    obtain ⟨e, he, rfl⟩ := List.mem_map.1 hn
    exact htargets e he
  refine ((composed_checkTargets targets).ensures s₁).bind fun _ s₂ st₂ _ => ?_
  have seen := seen.skip st₂
  refine .span_expect seen.reached.ordered fun s₃ st₃ _ => ?_
  have seen := seen.skip st₃
  refine (h.expList seen.reached).bind fun values s₄ st₄ hvalues => .pure ?_
  have seen := seen.addAll st₄ hvalues
  have steps : Steps s s₄ := ((st₁.trans st₂).trans st₃).trans st₄
  refine .node nofun ((hf.spans.widen (.refl r) (hs.later steps)).coverAll fun m hm => ?_)
    fun c hc => ?_
  · obtain ⟨e, he, rfl⟩ := List.mem_map.1 hm
    have mem : Node.exp e ∈ targets.map .exp ++ values.map .exp := by
      rw [← List.map_append]
      exact List.mem_map_of_mem he
    exact (seen.lies _ mem).inside
  · have mem := hc
    rw [show (Node.stat (.assign targets values _)).children = (targets ++ values).map .exp from
      (List.map_append ..).symm] at mem
    obtain ⟨e, he, rfl⟩ := List.mem_map.1 mem
    refine (seen.lies _ hc).part (Location.contains_coverAll_of_mem ?_ first.place) .refl
    exact List.mem_map_of_mem he

theorem fits_expStat (hs : Reached o s) :
    Ensures (expStat deeper) s (fun x s' => ∀ y ∈ x, Fits o st s s s' (.stat y))
      fun _ => True := by
  unfold expStat
  refine (fits_suffixed h hs).bind fun first s₁ st₁ hf => ?_
  have assign := (fits_assignStat h hf (hs.later st₁) (hs.next st₁)).map_some
  simp only [ensures_current]
  refine .ite (fun _ => assign) fun _ => .ite (fun _ => .pure ?_) fun _ =>
    .ite (fun _ => .pure (by simp)) fun _ => assign
  rintro y ⟨⟩
  refine .node (by simp) hf.spans fun c hc => ?_
  obtain rfl := List.mem_singleton.1 hc
  exact hf.part

theorem fits_returnStat (hs : Reached o s) :
    Ensures (returnStat deeper) s (fun x s' => Fits o st s s s' (.stat x)) fun _ => True := by
  unfold returnStat
  refine .span_advance hs.ordered fun s₁ st₁ left => ?_
  have rest : ∀ {values : List Exp} {s₂}, Seen o st s₁ s₂ (values.map .exp) → Ensures (do
      let place := s.current.location.coverAll (values.map Exp.place)
      let close ← accept .semicolon
      pure (Stat.ret values (place.cover? (close.map (·.location))))) s₂
      (fun x s' => Fits o st s s s' (.stat x)) fun _ => True := by
    intro values s₂ seen
    refine .span_accept seen.reached.ordered fun close s₃ st₃ hclose => .pure ?_
    have seen₃ := seen.skip st₃
    have covered : Spans s s s₃ (s.current.location.coverAll (values.map Exp.place)) := by
      refine (left.widen (.refl s) seen₃.later).coverAll fun m hm => ?_
      obtain ⟨e, he, rfl⟩ := List.mem_map.1 hm
      exact (seen₃.lies _ (List.mem_map_of_mem he)).inside.widen left.later (.refl s₃)
    refine .node nofun (covered.cover? fun x hx => ?_) fun c hc => ?_
    · obtain ⟨t, ht, rfl⟩ := Option.map_eq_some_iff.1 hx
      exact (hclose t ht).toInside.widen (left.later.trans seen.later) (.refl s₃)
    · obtain ⟨e, he, rfl⟩ := List.mem_map.1 hc
      refine (seen₃.lies _ hc).part (Location.contains_trans
        (Location.contains_cover?_left _ _) (Location.contains_coverAll_of_mem ?_ _)) .refl
      exact List.mem_map_of_mem he
  have seen := Seen.start st (hs.next st₁)
  simp only [ensures_current]
  refine .ite (fun _ => rest seen) fun _ => ?_
  exact (h.expList seen.reached).bind fun values s₂ st₂ hvalues => rest (seen.addAll st₂ hvalues)

theorem fits_statement (hs : Reached o s) :
    Ensures (statement deeper) s (fun x s' => ∀ y ∈ x, Fits o st s s s' (.stat y))
      fun _ => True := by
  unfold statement
  rw [ensures_current]
  split
  · exact .span_advance hs.ordered fun s₁ st₁ _ => .pure nofun
  · exact .span_advance hs.ordered fun s₁ st₁ _ => .pure nofun
  · refine .span_advance hs.ordered fun s₁ st₁ spans => .pure ?_
    rintro y ⟨⟩
    exact .leaf nofun spans rfl
  · exact (fits_labelStat hs).map_some
  · exact (fits_gotoStat hs).map_some
  · exact (fits_scopeStat h hs).map_some
  · exact (fits_whileStat h hs).map_some
  · exact (fits_repeatStat h hs).map_some
  · exact (fits_branchStat h hs).map_some
  · exact (fits_forStat h hs).map_some
  · exact (fits_functionStat h hs).map_some
  · exact (fits_localStat h hs).map_some
  · exact fits_expStat h hs

end Statement

/-! ## Blocks -/

/-- Statements that were read one after the other between two states. -/
structure Row (o st r s : State) (stats : List Stat) : Prop where
  lies : ∀ x ∈ stats, Lies o st r s (.stat x)
  reached : ∀ x ∈ stats, x.place.start ≤ s.current.location.start
  rising : stats.Pairwise fun x y => x.place.start ≤ y.place.start ∧ x.place.stop ≤ y.place.stop

namespace Row

variable {stats : List Stat} {first last x : Stat}

theorem nil : Row o st r s [] := ⟨nofun, nofun, .nil⟩

theorem skip (row : Row o st r s stats) (hs : Reached o s) (steps : Steps s s') :
    Row o st r s' stats where
  lies x hx := (row.lies x hx).widen (.refl r) hs steps
  reached x hx := le_trans (row.reached x hx) (hs.later steps).start
  rising := row.rising

theorem add (row : Row o st r s stats) (hr : Later r s) (hs : Reached o s) (steps : Steps s s')
    (hx : Fits o st s s s' (.stat x)) : Row o st r s' (stats ++ [x]) where
  lies y hy := by
    rcases List.mem_append.1 hy with hy | hy
    · exact (row.lies y hy).widen (.refl r) hs steps
    · obtain rfl := List.mem_singleton.1 hy
      exact hx.lies.widen hr (hs.next steps) .refl
  reached y hy := by
    rcases List.mem_append.1 hy with hy | hy
    · exact le_trans (row.reached y hy) (hs.later steps).start
    · obtain rfl := List.mem_singleton.1 hy
      exact hx.spans.reached
  rising := by
    refine List.pairwise_append.2 ⟨row.rising, List.pairwise_singleton _ _, fun y hy z hz => ?_⟩
    obtain rfl := List.mem_singleton.1 hz
    exact ⟨le_trans (row.reached y hy) hx.spans.first,
      le_trans (row.lies y hy).inside.last hx.spans.covers⟩

theorem first_le (row : Row o st r s stats) (hf : first ∈ stats.head?) (hx : x ∈ stats) :
    first.place.start ≤ x.place.start := by
  obtain ⟨rest, rfl⟩ := List.head?_eq_some_iff.1 hf
  rcases List.mem_cons.1 hx with rfl | hx
  · exact le_refl _
  · exact ((List.pairwise_cons.1 row.rising).1 x hx).1

theorem le_last (row : Row o st r s stats) (hl : last ∈ stats.getLast?) (hx : x ∈ stats) :
    x.place.stop ≤ last.place.stop := by
  obtain ⟨rest, rfl⟩ := List.getLast?_eq_some_iff.1 hl
  rcases List.mem_append.1 hx with hx | hx
  · exact ((List.pairwise_append.1 row.rising).2.2 x hx last List.mem_cons_self).2
  · obtain rfl := List.mem_singleton.1 hx
    exact le_refl _

/-- Statements in a row are covered from the first to the last. -/
theorem cover_eq (row : Row o st r s stats) (hf : first ∈ stats.head?)
    (hl : last ∈ stats.getLast?) :
    first.place.cover last.place = ⟨first.place.start, last.place.stop⟩ := by
  have start := row.first_le hf (List.mem_of_getLast? hl)
  have stop := row.le_last hl (List.mem_of_head? hf)
  show Location.mk (min _ _) (max _ _) = _
  rw [min_eq_left start, max_eq_right stop]

/-- A block of statements in a row lies where they do. -/
theorem lies_block {b : Block} (row : Row o st r s b.stats) (hr : Later r s) (hs : Reached o s)
    (filled : ∀ first ∈ b.stats.head?, ∀ last ∈ b.stats.getLast?,
      b.place = first.place.cover last.place)
    (empty : b.stats = [] → b.place = .point s.current.location.start)
    (read : Steps s st → BlockRead o st b) : Lies o st r s (.block b) := by
  have placed : Steps s st → BlockPlaced o st b := fun k => by
    refine ⟨read k, fun first hf last hl => ?_⟩
    rw [filled first hf last hl, row.cover_eq hf hl]
  cases hstats : b.stats with
  | nil =>
    have place := empty hstats
    have inside : Inside r s b.place := by
      rw [place]
      exact ⟨hr.start, le_refl _, hs.ordered.start_le_stop⟩
    have none : (Node.block b).children = [] := by simp [Node.children, hstats]
    refine ⟨inside, fun k => Node.all_iff.2 ⟨⟨inside.ordered, ?_, ?_⟩, ?_⟩⟩
    · simp [none]
    · rintro _ ⟨⟩
      exact placed k
    · simp [none]
  | cons first rest =>
    have hf : first ∈ b.stats.head? := by simp [hstats]
    obtain ⟨last, hl⟩ : ∃ last, last ∈ b.stats.getLast? := by
      rw [hstats]
      exact ⟨_, List.getLast?_eq_some_getLast (List.cons_ne_nil first rest)⟩
    have place : b.place = ⟨first.place.start, last.place.stop⟩ :=
      (filled first hf last hl).trans (row.cover_eq hf hl)
    have lies_first := row.lies first (List.mem_of_head? hf)
    have lies_last := row.lies last (List.mem_of_getLast? hl)
    have inside : Inside r s b.place := by
      rw [place]
      have stop := row.le_last hl (List.mem_of_head? hf)
      exact ⟨lies_first.inside.first, le_trans lies_first.inside.ordered stop,
        lies_last.inside.last⟩
    refine ⟨inside, fun k => Node.all_iff.2 ⟨⟨inside.ordered, fun c hc => ?_, ?_⟩, fun c hc => ?_⟩⟩
    · obtain ⟨x, hx, rfl⟩ := List.mem_map.1 hc
      show b.place.contains x.place
      rw [place, Location.contains_iff]
      exact ⟨row.first_le hf hx, row.le_last hl hx⟩
    · rintro _ ⟨⟩
      exact placed k
    · obtain ⟨x, hx, rfl⟩ := List.mem_map.1 hc
      exact (row.lies x hx).placed k

end Row

section Blocks

variable {deeper : Nested} (h : deeper.Placing o st)

include h

theorem row_statements {stats : List Stat} (row : Row o st r s stats) (hr : Later r s)
    (hs : Reached o s) :
    Ensures (statements deeper stats) s (fun stats s' => Row o st r s' stats) fun _ => True := by
  refine .loop_inv (I := fun stats s' => Row o st r s' stats)
    (advances_statementRound h.composed) hs.ends row fun stats s₁ st₁ row => ?_
  have hs₁ := hs.next st₁
  have hr₁ := hr.trans (hs.later st₁)
  unfold statementRound
  simp only [ensures_current, ensures_reports]
  refine .ite (fun _ => .pure row) fun _ => .ite (fun _ => ?_) fun _ => ?_
  · exact (fits_returnStat h hs₁).bind fun x s₂ st₂ hx => .pure (row.add hr₁ hs₁ st₂ hx)
  · refine (fits_statement h hs₁).bind fun x s₂ st₂ hx => ?_
    have row₂ : Row o st r s₂ (stats ++ x.toList) := by
      cases x with
      | none => simpa using row.skip hs₁ st₂
      | some x => exact row.add hr₁ hs₁ st₂ (hx x rfl)
    rw [ensures_reports]
    refine .ite (fun _ => ?_) fun _ => .pure row₂
    exact (composed_skipErrorLine.ensures s₂).bind fun _ s₃ st₃ _ =>
      .pure (row₂.skip (hs₁.next st₂) st₃)

theorem row_rootBlock (hs : Reached o s) :
    Ensures (rootBlock deeper) s (fun b s' => Row o st s s' b.stats ∧
      (∀ first ∈ b.stats.head?, ∀ last ∈ b.stats.getLast?,
        b.place = first.place.cover last.place) ∧
      (b.stats = [] → b.place = .point s'.current.location.start)) fun _ => True := by
  have all := Ensures.loop_inv (I := fun stats s' => Row o st s s' stats)
    (Q := fun stats s' => Row o st s s' stats) (E := fun _ => True)
    (advances_chunkRound h.composed) hs.ends .nil fun stats s₁ st₁ row => by
      have hs₁ := hs.next st₁
      refine (row_statements h row (hs.later st₁) hs₁).bind fun stats s₂ st₂ row => ?_
      have hs₂ := hs₁.next st₂
      rw [ensures_at?]
      refine .ite (fun _ => .pure row) fun _ => ?_
      simp only [ensures_found, ensures_current]
      refine ((Composed.report s₂.current.location rfl).ensures s₂).bind fun _ s₃ st₃ _ => ?_
      refine (Composed.advance.ensures s₃).bind fun _ s₄ st₄ _ => .pure ?_
      exact row.skip hs₂ (st₃.trans st₄)
  refine all.bind fun stats s₁ st₁ row => ensures_finish.imp ?_
  rintro b s₂ - ⟨rfl, rfl, bounds⟩
  exact ⟨row, bounds⟩

end Blocks

theorem lies_block {n : Nat} (h : (nested n).Placing o st) (hs : Reached o s) :
    Ensures (block (nested n)) s (fun b s' => Lies o st s s' (.block b)) fun _ => True := by
  have read : Ensures (block (nested n)) s (fun b s' => Row o st s s' b.stats ∧
      (∀ first ∈ b.stats.head?, ∀ last ∈ b.stats.getLast?,
        b.place = first.place.cover last.place) ∧
      (b.stats = [] → b.place = .point s'.current.location.start)) fun _ => True := by
    refine (row_statements h .nil (.refl s) hs).bind fun stats s₁ st₁ row => ensures_finish.imp ?_
    rintro b s₂ - ⟨rfl, rfl, bounds⟩
    exact ⟨row, bounds⟩
  refine read.with_run.imp fun b s' steps ⟨run, row, filled, empty⟩ => ?_
  exact row.lies_block (hs.later steps) (hs.next steps) filled empty fun k =>
    .inl ⟨n, s, s', hs.steps, run, k⟩

theorem placing_nested (n : Nat) : (nested n).Placing o st := by
  induction n with
  | zero => exact ⟨composed_nested 0, fun _ _ _ => .tooDeep trivial, fun _ => .tooDeep trivial⟩
  | succ n ih => exact ⟨composed_nested (n + 1), fun _ => fits_subexpression ih _, lies_block ih⟩

/-- All nodes of a program that was read from a state with tokens in order are placed. -/
theorem all_placed_of_rootBlock {tree : Block} (ho : o.Ordered) (he : o.Ends)
    (run : rootBlock (nested maxLevels) o = .ok tree st) :
    (Node.block tree).All (Placed o st) := by
  have start : Reached o o := ⟨.refl, ho, he⟩
  obtain ⟨steps, row, filled, empty⟩ := (row_rootBlock (placing_nested maxLevels) start).of_ok run
  have lies := row.lies_block (start.later steps) (start.next steps) filled empty
    fun _ => .inr run
  exact lies.placed .refl

end LuaFront.Parse
