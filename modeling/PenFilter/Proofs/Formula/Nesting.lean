import Mathlib.Data.List.Infix
import PenFilter.Proofs.Formula.Simulation
import PenFilter.Proofs.Formula.Steps
import PenFilter.Proofs.Formula.Depth
import PenFilter.Proofs.Formula.Scan

/-! # What the limit of depth counts

`Token.enclosures` lists what lies around the place after some tokens: groups, calls, signs, and the
bases whose exponents are being read.  It looks at nothing but the tokens, one after the other.

The limit is said to be one of parentheses, calls and signs (`Enclosure.nesting`).  What the parser
counts is `Enclosure.depth`: a call takes two levels, an exponent takes one
(`Enclosure.depth_eq`), and an operand needs a level for itself.  A formula is too deep only if an
operand lies inside of 64 such levels, and a formula that is read has no such place
(`Expr.parse_depth_limit`).  So a variable in 64 groups is refused (`Expr.parse_groupsText`). -/

namespace PenFilter

/-- A construct that an operand can lie inside of. -/
inductive Enclosure where
  | group
  | call
  | sign
  | exponent
deriving DecidableEq

namespace Enclosure

/-- How many levels of nesting the parser takes for it. -/
def levels : Enclosure → Nat
  | call => 2
  | group | sign | exponent => 1

/-- Whether it lies around one operand only.  The others have a closing parenthesis. -/
def endsWithOperand : Enclosure → Bool
  | sign | exponent => true
  | group | call => false

/-- What is left where an operand has ended. -/
def released (es : List Enclosure) : List Enclosure := es.dropWhile endsWithOperand

/-- How many levels the parser takes. -/
def depth (es : List Enclosure) : Nat := (es.map levels).sum

/-- How many parentheses, calls and signs there are. -/
def nesting (es : List Enclosure) : Nat := es.countP (· ≠ exponent)

theorem depth_append (es es' : List Enclosure) : depth (es ++ es') = depth es + depth es' := by
  rw [depth, List.map_append, List.sum_append, depth, depth]

/-- Calls are counted twice, and exponents are counted too. -/
theorem depth_eq (es : List Enclosure) :
    depth es = nesting es + es.count call + es.count exponent := by
  induction es with
  | nil => rfl
  | cons e es ih =>
      unfold depth nesting at ih ⊢
      rw [List.map_cons, List.sum_cons, ih]
      cases e <;> simp [levels] <;> omega

end Enclosure

namespace Token

/-- What lies around the place after a token. -/
def enclosed (previous : Option Token) (es : List Enclosure) (t : Token) : List Enclosure :=
  -- a product without a sign begins a new operand
  let around := if Cursor.impliesProduct previous (some t) then Enclosure.released es else es
  match t with
  | number _ | name _ => around
  | opening =>
    match previous with
    | some (name _) => .call :: around
    | _ => .group :: around
  | caret => .exponent :: es
  | plus | minus => if previous.any endsOperand then Enclosure.released es else .sign :: es
  | star | slash | comma => Enclosure.released es
  | closing => (Enclosure.released es).tail

/-- What lies around the place after more tokens. -/
def enclosuresFrom (previous : Option Token) (es : List Enclosure) : List Token → List Enclosure
  | [] => es
  | t :: ts => enclosuresFrom (some t) (enclosed previous es t) ts

/-- What lies around the place after some tokens, the innermost first. -/
def enclosures (ts : List Token) : List Enclosure := enclosuresFrom none [] ts

/-- An operand must begin after some tokens. -/
def AwaitsOperand (ts : List Token) : Prop := ts.getLast?.any endsOperand = false

end Token

namespace Automaton

/-! ### What a context encloses -/

def Front.enclosure : Front → Enclosure
  | minus | plus => .sign
  | base _ => .exponent

def Bracket.enclosure : Bracket → Enclosure
  | group => .group
  | call _ _ => .call

/-- What lies around the parentheses at a place, and these themselves. -/
def outerEnclosures (outer : List (Bracket × Level)) : List Enclosure :=
  outer.flatMap fun (b, l) => b.enclosure :: l.fronts.map Front.enclosure

def Context.enclosures (k : Context) : List Enclosure :=
  k.level.fronts.map Front.enclosure ++ outerEnclosures k.outer

theorem depth_fronts (fronts : List Front) :
    Enclosure.depth (fronts.map Front.enclosure) = fronts.length := by
  induction fronts with
  | nil => rfl
  | cons front fronts ih =>
      have hone : front.enclosure.levels = 1 := by cases front <;> rfl
      simp only [Enclosure.depth, List.map_cons, List.sum_cons, List.length_cons] at ih ⊢
      omega

theorem depth_outer (outer : List (Bracket × Level)) :
    Enclosure.depth (outerEnclosures outer) =
      (outer.map fun (b, l) => b.depth + l.fronts.length).sum := by
  induction outer with
  | nil => rfl
  | cons p outer ih =>
      obtain ⟨b, l⟩ := p
      have hlevels : b.enclosure.levels = b.depth := by cases b <;> rfl
      have hfronts := depth_fronts l.fronts
      unfold outerEnclosures at ih ⊢
      rw [List.flatMap_cons, Enclosure.depth_append, ih, List.map_cons, List.sum_cons]
      simp only [Enclosure.depth, List.map_cons, List.sum_cons] at hfronts ⊢
      omega

/-- The depth of a context is the one of what lies around it. -/
theorem Context.depth_enclosures (k : Context) : Enclosure.depth k.enclosures = k.depth := by
  rw [Context.enclosures, Enclosure.depth_append, depth_fronts, depth_outer]
  rfl

theorem released_outer (outer : List (Bracket × Level)) :
    Enclosure.released (outerEnclosures outer) = outerEnclosures outer := by
  cases outer with
  | nil => rfl
  | cons p outer =>
      obtain ⟨b, l⟩ := p
      cases b <;> rfl

theorem released_enclosures (k : Context) :
    Enclosure.released k.enclosures = outerEnclosures k.outer := by
  obtain ⟨⟨term, factor, fronts⟩, outer⟩ := k
  show Enclosure.released (fronts.map Front.enclosure ++ outerEnclosures outer) = _
  induction fronts with
  | nil => exact released_outer outer
  | cons front fronts ih =>
      cases front <;> exact ih

/-! ### States along the tokens -/

/-- What lies around the place where a state is. -/
def State.enclosures (s : State) : List Enclosure :=
  match s.focus with
  | .opened _ => .call :: s.context.enclosures
  | _ => s.context.enclosures

/-- The levels that a state has used. -/
def State.used (s : State) : Nat :=
  match s.focus with
  | .opened _ => s.context.depth + 1
  | _ => s.context.depth

/-- A state inside of the enclosures `es`. -/
structure Inside (s : State) (es : List Enclosure) : Prop where
  enclosures : s.enclosures = es
  used : s.used < maxDepth

/-- A state after tokens that have the enclosures `es` around their end. -/
structure Tracks (s : State) (previous : Option Token) (es : List Enclosure) : Prop
    extends Inside s es where
  after : s.focus.After previous

/-- What a token leads to: a state with `es` around it, or an operand that is inside of too much. -/
def Keeps (t : Token) (es : List Enclosure) : Except ParseError State → Prop
  | .ok s => Inside s es
  | .error error => error = .tooDeep → t.endsOperand = false ∧ maxDepth ≤ Enclosure.depth es

variable {k : Context} {budget : Nat} {t : Placed} {es : List Enclosure}

theorem keeps_expect {t : Token} (ht : t.endsOperand = false) (hk : k.enclosures = es) :
    Keeps t es (expect k budget) := by
  unfold expect
  split
  · rename_i hlow
    exact ⟨hk, hlow⟩
  · rename_i hfull
    intro _
    refine ⟨ht, ?_⟩
    rw [← hk, Context.depth_enclosures]
    exact Nat.le_of_not_lt hfull

theorem Keeps.spend {t : Token} {f : Nat → Except ParseError State}
    (h : ∀ budget, Keeps t es (f budget)) : Keeps t es (spend budget >>= f) :=
  spend_bind_of nofun h

theorem Keeps.expectHere {es' : List Enclosure} (hlow : k.depth < maxDepth)
    (h : Keeps t.token es' (beginOperand k budget t)) :
    Keeps t.token es' (expectHere k budget t) := by
  rw [Automaton.expectHere, if_pos hlow]
  exact h

section

variable {previous : Option Token}

theorem impliesProduct_of_not_endsOperand (h : previous.any Token.endsOperand = false)
    (next : Option Token) : Cursor.impliesProduct previous next = false := by
  cases previous with
  | none => rfl
  | some t => cases t <;> first | rfl | cases h

/-- A product without a sign leaves the operand before it. -/
theorem enclosed_of_impliesProduct {t : Token} (h : Cursor.impliesProduct previous (some t)) :
    Token.enclosed previous es t = Token.enclosed none (Enclosure.released es) t := by
  obtain ⟨u, v, rfl, hv, hj⟩ := Cursor.impliesProduct_iff.mp h
  cases hv
  cases hj <;> rfl

theorem keeps_beginOperand (hk : k.enclosures = es) (hlow : k.depth < maxDepth)
    (hprevious : previous.any Token.endsOperand = false) :
    Keeps t.token (Token.enclosed previous es t.token) (beginOperand k budget t) := by
  obtain ⟨token, offset⟩ := t
  have himplied : ∀ next, Cursor.impliesProduct previous next = false :=
    impliesProduct_of_not_endsOperand hprevious
  unfold Token.enclosed
  simp only [himplied, hprevious]
  cases token with
  | number value | name text => exact ⟨hk, hlow⟩
  | opening =>
      have hgroup : (k.enclose .group).enclosures = .group :: es := congrArg _ hk
      cases previous with
      | none => exact keeps_expect rfl hgroup
      | some t =>
          cases t with
          | name text => cases hprevious
          | _ => exact keeps_expect rfl hgroup
  | minus => exact Keeps.spend fun budget => keeps_expect rfl (congrArg _ hk)
  | plus => exact keeps_expect rfl (congrArg _ hk)
  | star | slash | caret | closing | comma => exact nofun

theorem depth_multiply_le (k : Context) (op : Operator) (e : Expr) :
    (k.multiply op e).depth ≤ k.depth := by
  simp only [Context.depth, Context.multiply, List.length_nil]
  omega

theorem keeps_close {e : Expr} (hk : k.enclosures = es) (hlow : k.depth < maxDepth) :
    Keeps t.token (Enclosure.released es).tail (close k budget e t) := by
  have hreleased := released_enclosures k
  rw [hk] at hreleased
  rw [hreleased]
  unfold close
  split
  · exact nofun
  · rename_i l outer houter
    have hused : Context.depth ⟨l, outer⟩ < maxDepth := by
      simp only [Context.depth, houter, List.map_cons, List.sum_cons] at hlow ⊢
      omega
    rw [houter]
    exact ⟨rfl, hused⟩
  · rename_i f args l outer houter
    have hused : Context.depth ⟨l, outer⟩ < maxDepth := by
      simp only [Context.depth, houter, List.map_cons, List.sum_cons] at hlow ⊢
      omega
    rw [houter]
    simp only
    split
    · exact ⟨rfl, hused⟩
    · intro h
      cases h

theorem keeps_nextArgument {e : Expr} (hk : k.enclosures = es) (ht : t.token = .comma) :
    Keeps t.token (Enclosure.released es) (nextArgument k budget e t) := by
  have hreleased := released_enclosures k
  rw [hk] at hreleased
  rw [hreleased, ht]
  unfold nextArgument
  split
  · rename_i f args l outer houter
    rw [houter]
    exact keeps_expect rfl rfl
  · exact nofun

theorem keeps_implied {e : Expr} (hk : k.enclosures = es) (hlow : k.depth < maxDepth)
    {error : ParseError} (herror : error ≠ .tooDeep) :
    Keeps t.token (Token.enclosed previous es t.token)
      (if Cursor.impliesProduct previous (some t.token) then
        spend budget >>= fun budget => expectHere (k.multiply .mul e) budget t
      else .error error) := by
  split
  · rename_i himplied
    have hfewer := Nat.lt_of_le_of_lt (depth_multiply_le k .mul e) hlow
    have hreleased : (k.multiply .mul e).enclosures = Enclosure.released es := by
      rw [← hk, released_enclosures]
      rfl
    rw [enclosed_of_impliesProduct himplied]
    exact Keeps.spend fun budget =>
      Keeps.expectHere hfewer (keeps_beginOperand hreleased hfewer rfl)
  · exact fun h => absurd h herror

theorem keeps_follow {e : Expr} (hk : k.enclosures = es) (hlow : k.depth < maxDepth)
    (hprevious : previous.any Token.endsOperand = true) :
    Keeps t.token (Token.enclosed previous es t.token) (follow k budget e previous t) := by
  have hreleased : outerEnclosures k.outer = Enclosure.released es := by
    rw [← hk, released_enclosures]
  have hsign : ∀ es', (if previous.any Token.endsOperand then Enclosure.released es else es') =
      Enclosure.released es := fun es' => if_pos hprevious
  obtain ⟨token, offset⟩ := t
  cases token with
  | caret => exact Keeps.spend fun budget => keeps_expect rfl (congrArg _ hk)
  | star | slash => exact Keeps.spend fun budget => keeps_expect rfl hreleased
  | plus | minus =>
      simp only [Token.enclosed, hsign]
      exact Keeps.spend fun budget => keeps_expect rfl hreleased
  | closing => exact keeps_close hk hlow
  | comma => exact keeps_nextArgument hk rfl
  | number value | name text | opening => exact keeps_implied hk hlow nofun

theorem keeps_openCall {text : String} {offset : Nat} (hk : k.enclosures = es) :
    Keeps .opening (.call :: es) (openCall k budget text offset) := by
  unfold openCall
  split
  · exact nofun
  · refine Keeps.spend fun budget => ?_
    split
    · rename_i hlow
      exact ⟨congrArg _ hk, hlow⟩
    · rename_i hfull
      intro _
      refine ⟨rfl, ?_⟩
      show maxDepth ≤ 2 + Enclosure.depth es
      rw [← hk, Context.depth_enclosures]
      omega

/-- **One token**: what lies around the place of a state follows the tokens.  A token is refused
as too deep where the operand that must follow it lies inside of too much, or where the place before
it lies inside of too much already. -/
theorem Tracks.step {s : State} (h : Tracks s previous es) (schema : Schema) (t : Placed) :
    Keeps t.token (Token.enclosed previous es t.token) (step schema s t) ∨
      (previous.any Token.endsOperand = false ∧ maxDepth ≤ Enclosure.depth es) := by
  obtain ⟨focus, k, budget⟩ := s
  obtain ⟨⟨hk, hused⟩, hafter⟩ := h
  cases focus with
  | operand => exact .inl (keeps_beginOperand hk hused hafter)
  | value e last =>
      obtain ⟨rfl, hprevious⟩ := hafter
      exact .inl (keeps_follow hk hused hprevious)
  | name text offset =>
      cases hafter
      left
      show Keeps t.token _ (followName schema k budget text offset t)
      unfold followName
      split
      · rename_i hopening
        rw [hopening]
        exact keeps_openCall hk
      · rcases ofName_cases schema text offset with ⟨e, he⟩ | hunknown
        · rw [he]
          exact keeps_follow hk hused rfl
        · rw [hunknown]
          exact nofun
  | opened f =>
      cases hafter
      have henclosed : (k.enclose (.call f [])).enclosures = es := hk
      -- the parenthesis was let through with room for the call alone
      by_cases hlow : (k.enclose (.call f [])).depth < maxDepth
      · left
        show Keeps t.token _ (firstArgument k budget f t)
        unfold firstArgument
        split
        · exact nofun
        · exact Keeps.expectHere hlow (keeps_beginOperand henclosed hlow rfl)
      · right
        refine ⟨rfl, ?_⟩
        rw [← henclosed, Context.depth_enclosures]
        exact Nat.le_of_not_lt hlow

/-! ### Runs -/

variable {schema : Schema} {s : State} {e : Expr}

theorem tracks_start : Tracks start none [] := ⟨⟨rfl, by decide⟩, rfl⟩

/-- Where the tokens end, only the first argument of a call can be too deep. -/
theorem Tracks.finish (h : Tracks s previous es) (hfinish : finish schema s = .error .tooDeep) :
    previous.any Token.endsOperand = false ∧ maxDepth ≤ Enclosure.depth es := by
  rcases finish_error_cases hfinish with ⟨_, ⟨⟩, _⟩ | ⟨_, _, ⟨⟩⟩ | ⟨-, f, hfocus, hdeep⟩
  obtain ⟨focus, k, budget⟩ := s
  obtain ⟨⟨rfl, -⟩, hafter⟩ := h
  cases hfocus
  cases hafter
  refine ⟨rfl, ?_⟩
  show maxDepth ≤ Enclosure.depth (k.enclose (.call f [])).enclosures
  rw [Context.depth_enclosures]
  exact hdeep

/-- A run that fails as too deep has come to an operand inside of too much. -/
theorem Tracks.run_tooDeep {tokens : List Placed} (h : Tracks s previous es)
    (hrun : run schema s tokens = .error .tooDeep) :
    ∃ before, before <+: tokens.map Placed.token ∧
      (before.getLast?.or previous).any Token.endsOperand = false ∧
      maxDepth ≤ Enclosure.depth (Token.enclosuresFrom previous es before) := by
  -- on the tokens; the place is here if the run fails here, and further on otherwise
  induction tokens generalizing s previous es with
  | nil =>
      obtain ⟨hprevious, hdeep⟩ := h.finish hrun
      exact ⟨[], List.nil_prefix, hprevious, hdeep⟩
  | cons t tokens ih =>
      rcases h.step schema t with hkeeps | ⟨hprevious, hdeep⟩
      · rw [run] at hrun
        cases hstep : Automaton.step schema s t with
        | error error =>
            rw [hstep] at hrun hkeeps
            cases hrun
            obtain ⟨ht, hdeep⟩ := hkeeps rfl
            exact ⟨[t.token], ⟨_, rfl⟩, ht, hdeep⟩
        | ok s' =>
            rw [hstep] at hrun hkeeps
            obtain ⟨before, hpart, hlast, hdeep⟩ := ih ⟨hkeeps, after_of_step hstep⟩ hrun
            refine ⟨t.token :: before, (List.prefix_cons_inj t.token).mpr hpart, ?_, hdeep⟩
            rw [List.getLast?_cons]
            cases hlast' : before.getLast? with
            | none => rwa [hlast'] at hlast
            | some u => rwa [hlast'] at hlast
      · exact ⟨[], List.nil_prefix, hprevious, hdeep⟩

theorem Tracks.depth_lt {tokens : List Placed} (h : Tracks s previous es)
    (hrun : run schema s tokens = .ok e) : Enclosure.depth es < maxDepth := by
  obtain ⟨focus, k, budget⟩ := s
  obtain ⟨⟨rfl, hused⟩, -⟩ := h
  cases focus with
  | operand | name text offset | value e last =>
      show Enclosure.depth k.enclosures < maxDepth
      rw [Context.depth_enclosures]
      exact hused
  | opened f =>
      -- the first argument has been read, so there was room for it
      show Enclosure.depth (k.enclose (.call f [])).enclosures < maxDepth
      rw [Context.depth_enclosures]
      refine Nat.lt_of_not_le fun hfull => ?_
      have hfull' : ¬ (k.enclose (.call f [])).depth < maxDepth := Nat.not_lt_of_le hfull
      cases tokens with
      | nil =>
          simp only [run, Automaton.finish, expect, if_neg hfull'] at hrun
          cases hrun
      | cons t tokens =>
          simp only [run, Automaton.step, firstArgument, Automaton.expectHere,
            if_neg hfull'] at hrun
          split at hrun <;> cases hrun

/-- A run that succeeds comes to no place inside of too much. -/
theorem Tracks.run_ok {tokens : List Placed} (h : Tracks s previous es)
    (hrun : run schema s tokens = .ok e) {before : List Token}
    (hpart : before <+: tokens.map Placed.token) :
    Enclosure.depth (Token.enclosuresFrom previous es before) < maxDepth := by
  induction tokens generalizing s previous es before with
  | nil =>
      obtain rfl := List.prefix_nil.mp hpart
      exact h.depth_lt hrun
  | cons t tokens ih =>
      cases before with
      | nil => exact h.depth_lt hrun
      | cons u before =>
          obtain ⟨rfl, hpart'⟩ := List.cons_prefix_cons.mp hpart
          rcases h.step schema t with hkeeps | ⟨-, hdeep⟩
          · obtain ⟨s', hstep, hrest⟩ := bind_eq_ok_iff.mp hrun
            rw [hstep] at hkeeps
            exact ih ⟨hkeeps, after_of_step hstep⟩ hrest hpart'
          · exact absurd (h.depth_lt hrun) (Nat.not_lt_of_le hdeep)

end

end Automaton

/-! ### Lists of tokens -/

namespace Expr

variable {schema : Schema} {tokens : List Placed}

/-- Tokens that are refused as too deep have an operand inside of too much. -/
theorem exists_depth_le_of_tooDeep (h : ofTokens schema tokens = .error .tooDeep) :
    ∃ before, before <+: tokens.map Placed.token ∧ Token.AwaitsOperand before ∧
      maxDepth ≤ Enclosure.depth (Token.enclosures before) := by
  have hne : tokens ≠ [] := by
    rintro rfl
    cases h
  rw [ofTokens_eq_run schema hne] at h
  obtain ⟨before, hpart, hlast, hdeep⟩ := Automaton.tracks_start.run_tooDeep h
  rw [Option.or_none] at hlast
  exact ⟨before, hpart, hlast, hdeep⟩

theorem depth_lt_of_ofTokens {e : Expr} (h : ofTokens schema tokens = .ok e) {before : List Token}
    (hpart : before <+: tokens.map Placed.token) :
    Enclosure.depth (Token.enclosures before) < maxDepth := by
  have hne : tokens ≠ [] := by
    rintro rfl
    cases h
  rw [ofTokens_eq_run schema hne] at h
  exact Automaton.tracks_start.run_ok h hpart

end Expr

/-! ### Texts -/

namespace Token

theorem front_ne_tooDeep (offset : Nat) (c : Char) (cs : List Char) :
    front offset c cs ≠ .error .tooDeep := by
  unfold front
  split
  · exact nofun
  · split
    · dsimp only
      split <;> exact nofun
    · split <;> exact nofun

theorem scanFrom_ne_tooDeep (offset pending : Nat) (cs : List Char) :
    scanFrom offset pending cs ≠ .error .tooDeep := by
  induction cs generalizing offset pending with
  | nil => exact nofun
  | cons c cs ih =>
      cases pending with
      | succ k => exact ih _ k
      | zero =>
          rw [scanFrom]
          split
          · exact ih _ 0
          · split
            · rename_i error hfront
              rintro ⟨⟩
              exact front_ne_tooDeep _ _ _ hfront
            · rename_i t n hfront
              intro h
              cases hrest : scanFrom (offset + c.utf8Size) (n - 1) cs with
              | error error =>
                  rw [hrest] at h
                  cases h
                  exact ih _ _ hrest
              | ok rest =>
                  rw [hrest] at h
                  cases h

end Token

namespace Expr

/-- **What the limit of depth is one of**: a formula is refused as too deep only if an operand must
begin inside of 64 levels, where groups, signs and exponents take one and calls take two.  A formula
that is read has no place inside of 64 levels. -/
theorem parse_depth_limit (schema : Schema) (source : String) :
    (parse schema source = .error .tooDeep →
      ∃ tokens before, Token.scan source = .ok tokens ∧
        before <+: tokens.map Placed.token ∧ Token.AwaitsOperand before ∧
        maxDepth ≤ Enclosure.depth (Token.enclosures before)) ∧
    ∀ e tokens, parse schema source = .ok e → Token.scan source = .ok tokens →
      ∀ before, before <+: tokens.map Placed.token →
        Enclosure.depth (Token.enclosures before) < maxDepth := by
  constructor
  · intro hparse
    rw [parse] at hparse
    cases hscan : Token.scan source with
    | error error =>
        rw [hscan] at hparse
        cases hparse
        exact absurd hscan (Token.scanFrom_ne_tooDeep 0 0 source.toList)
    | ok tokens =>
        rw [hscan] at hparse
        obtain ⟨before, h⟩ := exists_depth_le_of_tooDeep hparse
        exact ⟨tokens, before, rfl, h⟩
  · intro e tokens hparse hscan before hpart
    rw [parse, hscan] at hparse
    exact depth_lt_of_ofTokens hparse hpart

/-! ### Groups inside of groups -/

/-- A text with `n` pairs of parentheses around a name. -/
def groupsText (name : String) (n : Nat) : String :=
  .ofList (List.replicate n '(' ++ (name.toList ++ List.replicate n ')'))

/-- The tokens of the text. -/
def groupsTokens (name : String) (n : Nat) : List Token :=
  List.replicate n .opening ++ .name name :: List.replicate n .closing

section

variable {name : String} {slot : Nat}

theorem groupsTokens_succ (name : String) (n : Nat) :
    groupsTokens name (n + 1) = .opening :: (groupsTokens name n ++ [.closing]) := by
  rw [groupsTokens, groupsTokens, List.replicate_succ' (a := Token.closing)]
  simp [List.replicate_succ]

theorem scan_groupsText (hname : IsName name) (n : Nat) :
    ∃ tokens, Token.scan (groupsText name n) = .ok tokens ∧
      tokens.map Placed.token = groupsTokens name n := by
  have hclosings : ∀ m, Token.Scans (List.replicate m ')') (List.replicate m .closing) := by
    intro m
    induction m with
    | zero => exact Token.scans_nil
    | succ m ih => exact ih.symbol rfl
  have hends : Ends (List.replicate n ')') := by
    cases n with
    | zero => exact ends_nil
    | succ n => exact ends_cons (by decide)
  have hgroups : ∀ m, Token.Scans (List.replicate m '(' ++ (name.toList ++ List.replicate n ')'))
      (List.replicate m .opening ++ .name name :: List.replicate n .closing) := by
    intro m
    induction m with
    | zero => exact (hclosings n).name hends hname
    | succ m ih => exact ih.symbol rfl
  rw [Token.scan, groupsText, String.toList_ofList]
  exact hgroups n 0

theorem sum_groupsTokens (hslot : schema.slotOf? name = some slot) (n : Nat) :
    Grammar.Sum schema (n + 1) (groupsTokens name n) (.var name slot) := by
  induction n with
  | zero => exact .product (.signed (.power (.primary (.var hslot))))
  | succ n ih =>
      rw [groupsTokens_succ]
      exact .product (.signed (.power (.primary (.group ih))))

/-- A variable can be inside of 63 groups, and not of 64. -/
theorem parse_groupsText (hname : IsName name) (hslot : schema.slotOf? name = some slot) (n : Nat) :
    parse schema (groupsText name n) =
      if n + 1 ≤ maxDepth then .ok (.var name slot) else .error .tooDeep := by
  obtain ⟨tokens, hscan, htokens⟩ := scan_groupsText hname n
  rw [parse, hscan]
  exact ofTokens_of_sum (htokens ▸ sum_groupsTokens hslot n) (Nat.zero_le _)

end

theorem isName_x : IsName "x" := ⟨by simp [isNameStart], by simp [isNameChar], by simp⟩

/-- The theorem at 64 groups, which are too deep, and at 63, which are not. -/
theorem parse_depth_limit_groups :
    let schema : Schema := .ofList ["x"]
    (parse schema (groupsText "x" 64) = .error .tooDeep ∧
      ∃ tokens before, Token.scan (groupsText "x" 64) = .ok tokens ∧
        before <+: tokens.map Placed.token ∧ Token.AwaitsOperand before ∧
        maxDepth ≤ Enclosure.depth (Token.enclosures before)) ∧
    parse schema (groupsText "x" 63) = .ok (.var "x" 0) ∧
      ∃ tokens, Token.scan (groupsText "x" 63) = .ok tokens ∧
        ∀ before, before <+: tokens.map Placed.token →
          Enclosure.depth (Token.enclosures before) < maxDepth := by
  intro schema
  have hslot : schema.slotOf? "x" = some 0 := by decide
  have hdeep : parse schema (groupsText "x" 64) = .error .tooDeep :=
    parse_groupsText isName_x hslot 64
  have hread : parse schema (groupsText "x" 63) = .ok (.var "x" 0) :=
    parse_groupsText isName_x hslot 63
  obtain ⟨tokens, hscan, -⟩ := scan_groupsText isName_x 63
  exact ⟨⟨hdeep, (parse_depth_limit schema (groupsText "x" 64)).1 hdeep⟩, hread, tokens, hscan,
    (parse_depth_limit schema (groupsText "x" 63)).2 _ tokens hread hscan⟩

/-- Nothing in 64 groups is inside of more than 64 parentheses, calls and signs, and still they are
refused. -/
theorem tooDeep_within_nesting :
    parse (.ofList ["x"]) (groupsText "x" 64) = .error .tooDeep ∧
    ∃ tokens, Token.scan (groupsText "x" 64) = .ok tokens ∧
      ∀ before, before <+: tokens.map Placed.token →
        Enclosure.nesting (Token.enclosures before) ≤ maxDepth := by
  have hslot : (Schema.ofList ["x"]).slotOf? "x" = some 0 := by decide
  obtain ⟨tokens, hscan, htokens⟩ := scan_groupsText isName_x 64
  refine ⟨parse_groupsText isName_x hslot 64, tokens, hscan, ?_⟩
  intro before hpart
  rw [htokens] at hpart
  have hall : ∀ before ∈ (groupsTokens "x" 64).inits,
      Enclosure.nesting (Token.enclosures before) ≤ maxDepth := by decide +kernel
  exact hall before ((List.mem_inits before _).mpr hpart)

end Expr

end PenFilter
