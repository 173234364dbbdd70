import ProtoClojure.Compiler.Layout

/-! Where `recur` may stand: it leads back to the start of its loop with the operand stack as
it was there, so nothing may be pending on it. -/
namespace ProtoClojure

mutual

/-- Whether control can get past an expression. -/
def Exp.returns : Exp → Bool
  | .lit _ | .sym _ | .global _ | .fn _ _ _ => true
  | .recur _ | .throw _ => false
  | .member o _ => o.returns
  | .ite test thn els => test.returns && (thn.returns || els.returns)
  | .both a _ | .either a _ => a.returns
  | .seq a b | .apply a b | .operator _ _ a b => a.returns && b.returns
  | .bind _ init body => init.returns && body.returns
  | .loop bs body => bs.returns && body.returns
  | .call _ f args => f.returns && args.returns
  | .callMember o _ args => o.returns && args.returns
  | .setGlobal _ e | .tryPlain e => e.returns
  | .tryCatch body clauses => body.returns || clauses.returns
  | .tryFinally body fin _ => body.returns && fin.returns

def Exps.returns : Exps → Bool
  | .nil => true
  | .cons e rest => e.returns && rest.returns

def Binds.returns : Binds → Bool
  | .nil => true
  | .cons _ init rest => init.returns && rest.returns

/-- Whether it can get past one of the clauses. -/
def Clauses.returns : Clauses → Bool
  | .nil => false
  | .cons _ _ body rest => body.returns || rest.returns

end

mutual

/-- No `recur` that control can reach stands where operands are pending, nor does one in the
functions made. -/
def Exp.steady (pending : Bool) : Exp → Bool
  | .lit _ | .sym _ | .global _ => true
  | .member o _ => o.steady pending
  | .ite test thn els =>
    test.steady pending && (!test.returns || thn.steady pending && els.steady pending)
  | .both a b | .either a b | .seq a b => a.steady pending && (!a.returns || b.steady pending)
  | .bind _ init body => init.steady pending && (!init.returns || body.steady pending)
  | .loop bs body => bs.steady pending && (!bs.returns || body.steady false)
  | .recur args => args.steady pending && (!args.returns || !pending)
  | .fn _ _ arities => arities.steady
  | .call _ f args => f.steady pending && (!f.returns || args.steady true)
  | .apply f a => f.steady pending && (!f.returns || a.steady true)
  | .operator _ _ a b => a.steady pending && (!a.returns || b.steady true)
  | .callMember o _ args => o.steady pending && (!o.returns || args.steady true)
  | .setGlobal _ e | .throw e | .tryPlain e => e.steady pending
  | .tryCatch body clauses => body.steady pending && clauses.steady pending
  | .tryFinally body fin fin' =>
    body.steady pending && (!body.returns || fin.effectsSteady true) && fin'.effectsSteady pending

/-- Every value is left on the stack. -/
def Exps.steady (pending : Bool) : Exps → Bool
  | .nil => true
  | .cons e rest => e.steady pending && (!e.returns || rest.steady true)

/-- Every value is dropped. -/
def Exps.effectsSteady (pending : Bool) : Exps → Bool
  | .nil => true
  | .cons e rest => e.steady pending && (!e.returns || rest.effectsSteady pending)

def Binds.steady (pending : Bool) : Binds → Bool
  | .nil => true
  | .cons _ init rest => init.steady pending && (!init.returns || rest.steady pending)

def Clauses.steady (pending : Bool) : Clauses → Bool
  | .nil => true
  | .cons _ _ body rest => body.steady pending && rest.steady pending

def Keys.steady : Keys → Bool
  | .nil => true
  | .cons _ rest => rest.steady
  | .consOr _ default rest => default.steady false && rest.steady

/-- An arity without keyword arguments has no keys. -/
def Arities.steady : Arities → Bool
  | .nil => true
  | .cons _ rest keys body more =>
    (rest.isKwBased || keys.names.isEmpty) && keys.steady && body.steady false && more.steady

end

end ProtoClojure
