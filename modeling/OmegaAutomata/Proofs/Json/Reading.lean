/-
# Values are read from what spells them

Whatever containers are open, the reader goes through the tokens of a value and is then after it
(`foldlM_tokens`).  The items of an array that come after the first one, and the members of an
object, are added to what the innermost container holds already.  So every text that spells a value
is read as this value (`ofText?_of_spelled`).
-/

import OmegaAutomata.Json.Reader
import OmegaAutomata.Proofs.Json.Lexing

namespace OmegaAutomata

namespace Json

variable {outer : List Open} {ts : List Token} {done : List Value}
  {entries : List (Option String × Value)} {k : Option String}

namespace Reader

/-- Whatever begins a value may begin the first item of an array. -/
theorem step_firstItem {t : Token} (ht : t ≠ .rightBracket) :
    step (.firstItem outer) t = step (.value (.items [] :: outer)) t := by
  cases t with
  | rightBracket => exact absurd rfl ht
  | _ => rfl

end Reader

namespace Value

theorem foldlM_step {r r' : Reader} {t : Token} (h : r.step t = some r') :
    (t :: ts).foldlM Reader.step r = ts.foldlM Reader.step r' := by
  rw [List.foldlM_cons, h]
  rfl

/-- No value begins with a closing bracket. -/
theorem exists_tokens_eq_cons (v : Value) : ∃ t ts, v.tokens = t :: ts ∧ t ≠ .rightBracket := by
  cases v with
  | array vs => cases vs <;> simp [tokens]
  | object ms => cases ms <;> simp [tokens]
  | _ => simp [tokens]

theorem foldlM_firstItem (v : Value) :
    (v.tokens ++ ts).foldlM Reader.step (.firstItem outer) =
      (v.tokens ++ ts).foldlM Reader.step (.value (.items [] :: outer)) := by
  obtain ⟨t, rest, heq, ht⟩ := v.exists_tokens_eq_cons
  rw [heq, List.cons_append, List.foldlM_cons, List.foldlM_cons, Reader.step_firstItem ht]

mutual

/-- **Reading the tokens of a value** ends after the value. -/
theorem foldlM_tokens (outer : List Open) (ts : List Token) :
    (v : Value) → (v.tokens ++ ts).foldlM Reader.step (.value outer) =
      ts.foldlM Reader.step (.after v outer)
  | null => rfl
  | bool _ => rfl
  | integer _ => rfl
  | decimal _ => rfl
  | string _ => rfl
  | array [] => rfl
  | array (v :: vs) => by
    simp only [tokens, List.cons_append, List.append_assoc, List.nil_append]
    rw [foldlM_step rfl, foldlM_firstItem, foldlM_tokens _ _ v, foldlM_moreItems _ _ vs]
    rfl
  | object [] => rfl
  | object ((k, v) :: ms) => by
    simp only [tokens, List.cons_append, List.append_assoc, List.nil_append]
    rw [foldlM_step rfl, foldlM_step rfl, foldlM_step rfl, foldlM_tokens _ _ v,
      foldlM_moreMembers _ _ ms]
    rfl

/-- The other items of an array come after those that it holds. -/
theorem foldlM_moreItems (outer : List Open) (ts : List Token) :
    (vs : List Value) → ∀ (done : List Value) (v : Value),
      (moreItemTokens vs ++ .rightBracket :: ts).foldlM Reader.step
          (.after v (.items done :: outer)) =
        ts.foldlM Reader.step (.after (.array ((v :: done).reverse ++ vs)) outer)
  | [], done, v => by
    rw [List.append_nil]
    rfl
  | w :: vs, done, v => by
    simp only [moreItemTokens, List.cons_append, List.append_assoc]
    rw [foldlM_step rfl, foldlM_tokens _ _ w, foldlM_moreItems _ _ vs]
    simp

/-- So do the other members of an object. -/
theorem foldlM_moreMembers (outer : List Open) (ts : List Token) :
    (ms : List (Option String × Value)) →
      ∀ (done : List (Option String × Value)) (k : Option String) (v : Value),
      (moreMemberTokens ms ++ .rightBrace :: ts).foldlM Reader.step
          (.after v (.members done k :: outer)) =
        ts.foldlM Reader.step (.after (.object (((k, v) :: done).reverse ++ ms)) outer)
  | [], done, k, v => by
    rw [List.append_nil]
    rfl
  | (j, w) :: ms, done, k, v => by
    simp only [moreMemberTokens, List.cons_append, List.append_assoc]
    rw [foldlM_step rfl, foldlM_step rfl, foldlM_step rfl, foldlM_tokens _ _ w,
      foldlM_moreMembers _ _ ms]
    simp

end

/-- **A text that spells a value is read as it.** -/
theorem ofText?_of_spelled {v : Value} {text : String} (h : v.Spelled text) :
    ofText? text = some v := by
  have htokens := foldlM_tokens [] [] v
  rw [List.append_nil] at htokens
  rw [ofText?, lex, lexFrom_of_spells h []]
  show ofTokens? v.tokens = some v
  rw [ofTokens?, htokens]
  rfl

end Value

end Json

end OmegaAutomata
