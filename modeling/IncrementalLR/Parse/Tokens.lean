/-
**The tokens at a position and the actions for them.**

Stacks at the same position mostly want the same tokens, so each tokenizer's last token is kept and
taken again while position, tokenizer mask and context hash are the same.  A stack asks its
tokenizers one after the other until one gives a token with an action.

Main definitions:

* `TokenAction`, `collectActions` — the actions of a state for a token;
* `Parse.readToken`, `Parse.tokenFor` — reading a token, or taking the one that was kept;
* `Parse.gather`, `Parse.actionsFor` — the actions of a stack for the tokens at its position;
* `Parse.mainToken` — the token that a stack is stuck at.
-/

import IncrementalLR.Parse.Basic

set_option relaxedAutoImplicit false
set_option autoImplicit false

namespace IncrementalLR

/-! ### Actions for a token -/

/-- An action for a token that ends at `stop`. -/
structure TokenAction where
  word : Nat
  term : Nat
  stop : Nat
deriving Repr, DecidableEq

/-- Adds an action unless it is there already. -/
def insertAction (a : TokenAction) (actions : List TokenAction) : List TokenAction :=
  if actions.any (·.word = a.word) then actions else actions ++ [a]

/-- Adds the actions of a list for a token; the action for other terms counts only if there is no
action at all. -/
def ActionList.addTo (l : ActionList) (term stop : Nat) (actions : List TokenAction) :
    List TokenAction :=
  let actions := l.entries.foldl (fun actions e =>
    if e.term = term then insertAction ⟨e.word, term, stop⟩ actions else actions) actions
  match l.other with
  | some word => if actions.isEmpty then insertAction ⟨word, term, stop⟩ actions else actions
  | none => actions

/-- Adds the actions of a state for a token. -/
def collectActions (t : Tables) (state term stop : Nat) (actions : List TokenAction) :
    List TokenAction :=
  if t.hasState state then
    let row := t.row state
    (t.actionList row.skip).addTo term stop ((t.actionList row.actions).addTo term stop actions)
  else actions

/-- Adds the actions of a state for the further term of a token, if it has one. -/
def collectFurther (t : Tables) (state : Nat) (token : Token) (actions : List TokenAction) :
    List TokenAction :=
  match token.extended with
  | some term => collectActions t state term token.stop actions
  | none => actions

namespace Parse

/-! ### Reading tokens -/

/-- The first specialization of a token that the dialect allows, with the lines that the rules have
written. -/
def specialization (p : Parser) (text : String) (v : StackView) :
    List Specializer → List String → Option Specialization × List String
  | [], lines => (none, lines)
  | s :: rest, lines =>
      let r := s.apply text v
      let lines := r.2.reverse ++ lines
      match r.1 with
      | some result =>
          if p.dialect.allows result.term then (some result, lines)
          else specialization p text v rest lines
      | none => specialization p text v rest lines

/-- The token with a specialization. -/
def specialized (t : Token) : Option Specialization → Token
  | some (.specialize term) => { t with value := some term }
  | some (.extend term) => { t with extended := some term }
  | none => t

/-- Reads a token for a stack; where none is accepted, one character becomes an error token. -/
def readToken (i : Nat) (tokenizer : Tokenizer) (s : Stack) : ParseM Token := do
  let p ← get
  let v : StackView := ⟨p.parser.toGrammar, s, p.env.limit⟩
  let start := p.env.stream.clip s.pos
  let stream := p.env.stream.reset start (some (p.memo.tokens.getD i {}))
  let scanned := (tokenizer.scan v).run stream p.env.output
  match scanned.1 with
  | .error e =>
      set { p with
        env := { p.env with output := scanned.2 },
        memo := { p.memo with tokens := p.memo.tokens.setIfInBounds i {} } }
      throw e
  | .ok stream =>
      let token := stream.token
      let stream := { stream with token := {} }
      match token.value with
      | some term =>
          let text := stream.read start token.stop
          let r := specialization p.parser text v (p.parser.rulesFor term) scanned.2
          set { p with env := { p.env with stream, output := r.2 } }
          return specialized token r.1
      | none =>
          set { p with env := { p.env with stream, output := scanned.2 } }
          return { token with value := some errorTerm, stop := stream.charEnd start }

/-- The token of a tokenizer for a stack: the one that was kept, if it still fits, else a new
one. -/
def tokenFor (i : Nat) (tokenizer : Tokenizer) (s : Stack) (mask context : Nat) : ParseM Token := do
  let kept := (← get).memo.tokens.getD i {}
  if !tokenizer.contextual && kept.start = some s.pos && kept.mask = mask && kept.context = context
  then return kept
  else
    let token ← readToken i tokenizer s
    let token := { token with mask, context }
    modify fun p =>
      { p with memo := { p.memo with tokens := p.memo.tokens.setIfInBounds i token } }
    return token

/-! ### Actions of a stack -/

/-- What has been found for a stack so far. -/
structure Gathered where
  actions : List TokenAction := []
  main : Option Token := none
  lookAhead : Nat := 0

/-- Notes how far a token looked, if that is worth recording. -/
def Gathered.look (g : Gathered) (t : Token) : Gathered :=
  if t.stop + lookAheadMargin < t.lookAhead then { g with lookAhead := max g.lookAhead t.lookAhead }
  else g

/-- Asks tokenizers, given with their indices, one after the other. -/
def gather (s : Stack) (mask context : Nat) : List (Tokenizer × Nat) → Gathered → ParseM Gathered
  | [], g => return g
  | (t, i) :: rest, g => do
      if !(i < 32 && mask.testBit i) || (g.main.isSome && !t.fallback) then
        gather s mask context rest g
      else
        let token ← tokenFor i t s mask context
        let g := g.look token
        let term := token.value.getD errorTerm
        -- an error token is no answer: the next tokenizer is asked
        if term = errorTerm then gather s mask context rest g
        else
          let tables := (← get).parser.tables
          ParseM.guardLimit (tables.listsEnd s.state)
          let before := collectFurther tables s.state token g.actions
          let actions := collectActions tables s.state term token.stop before
          if t.extend then gather s mask context rest { g with actions }
          else if g.actions.length < actions.length then
            return { g with actions, main := some token }
          else gather s mask context rest { g with actions, main := some token }

/-- The actions of a stack for the tokens at its position, and the stack with its look-ahead
raised.  At the end of the input, where no tokenizer has a token, the end itself is the token. -/
def actionsFor (s : Stack) : ParseM (List TokenAction × Stack) := do
  let p ← get
  let g := p.parser.toGrammar
  let mask := (g.tables.row s.state).tokenizerMask
  let context := (s.context.map (·.hash)).getD 0
  let found ← gather s mask context p.parser.tokenizers.toList.zipIdx {}
  let s := if 0 < found.lookAhead then s.raiseLookAhead found.lookAhead else s
  -- the end counts only if no tokenizer has a token there
  let atEnd := found.main.isNone && s.pos = p.env.stream.stop
  ParseM.guardLimit (!atEnd || g.tables.listsEnd s.state)
  let main :=
    if atEnd then some { start := some s.pos, value := some g.eofTerm, stop := s.pos }
    else found.main
  let actions :=
    if atEnd then collectActions g.tables s.state g.eofTerm s.pos found.actions else found.actions
  modify fun p => { p with memo := { p.memo with main } }
  return (actions, s)

/-- The term and the end of the token that a stack is stuck at; without a token, one character. -/
def mainToken (p : Parse) (s : Stack) : Nat × Nat :=
  let stream := p.env.stream
  match p.memo.main with
  | some t => (t.value.getD 0, t.stop)
  | none =>
      if stream.stop ≤ s.pos then (p.parser.eofTerm, stream.stop)
      else (errorTerm, min (stream.charEnd s.pos) stream.stop)

end Parse

end IncrementalLR
