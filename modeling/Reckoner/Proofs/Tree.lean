import Reckoner.Node

/-! Trees as trees: the nodes directly below a node, the variables that occur in it, tests of all
its parts, and the same tree with its variables called by other names. Names of functions are not
variables: they are neither counted nor renamed. -/
namespace Reckoner

namespace Node

@[simp] def children : Node → List Node
  | number .. => []
  | identifier .. => []
  | operation left _ right => [left, right]
  | call _ arguments => arguments
  | define _ _ body => [body]
  | declare _ expression => [expression]
  | conditional predicate ifTrue ifFalse => [predicate, ifTrue, ifFalse]
  | range first second step => [first, second, step]
  | loop _ first second step body => [first, second, step, body]
  | assign _ expression => [expression]
  | factorial expression => [expression]
  | block nodes => nodes
  | array items => items
  | index items position => [items, position]
  | hole => []

def names : Node → List String
  | identifier name => [name]
  | define _ parameters _ => parameters
  | declare name _ => [name]
  | loop counter .. => [counter]
  | assign targets _ => targets
  | _ => []

mutual

def vars : Node → List String
  | number .. => []
  | identifier name => [name]
  | operation left _ right => left.vars ++ right.vars
  | call _ arguments => varsAll arguments
  | define _ parameters body => parameters ++ body.vars
  | declare name expression => name :: expression.vars
  | conditional predicate ifTrue ifFalse =>
    predicate.vars ++ ifTrue.vars ++ ifFalse.vars
  | range first second step => first.vars ++ second.vars ++ step.vars
  | loop counter first second step body =>
    counter :: (first.vars ++ second.vars ++ step.vars ++ body.vars)
  | assign targets expression => targets ++ expression.vars
  | factorial expression => expression.vars
  | block nodes => varsAll nodes
  | array items => varsAll items
  | index items position => items.vars ++ position.vars
  | hole => []

def varsAll : List Node → List String
  | [] => []
  | node :: rest => node.vars ++ varsAll rest

end

theorem varsAll_eq_flatMap (nodes : List Node) :
    varsAll nodes = nodes.flatMap vars := by
  induction nodes with
  | nil => rfl
  | cons node rest ih => rw [varsAll, ih, List.flatMap_cons]

theorem vars_eq (node : Node) :
    node.vars = node.names ++ node.children.flatMap vars := by
  cases node <;> simp [vars, names, children, varsAll_eq_flatMap]

theorem mem_vars_of_names {node : Node} {name : String} (named : name ∈ node.names) :
    name ∈ node.vars := by
  rw [vars_eq]
  exact List.mem_append_left _ named

theorem mem_vars_of_child {node child : Node} {name : String}
    (below : child ∈ node.children) (named : name ∈ child.vars) : name ∈ node.vars := by
  rw [vars_eq]
  exact List.mem_append_right _ (List.mem_flatMap_of_mem below named)

mutual

def every (test : Node → Bool) (node : Node) : Bool :=
  test node && match node with
    | operation left _ right => left.every test && right.every test
    | call _ arguments => everyAll test arguments
    | define _ _ body => body.every test
    | declare _ expression => expression.every test
    | conditional predicate ifTrue ifFalse =>
      predicate.every test && ifTrue.every test && ifFalse.every test
    | range first second step => first.every test && second.every test && step.every test
    | loop _ first second step body =>
      first.every test && second.every test && step.every test && body.every test
    | assign _ expression => expression.every test
    | factorial expression => expression.every test
    | block nodes => everyAll test nodes
    | array items => everyAll test items
    | index items position => items.every test && position.every test
    | _ => true

def everyAll (test : Node → Bool) : List Node → Bool
  | [] => true
  | node :: rest => node.every test && everyAll test rest

end

theorem everyAll_eq_all (test : Node → Bool) (nodes : List Node) :
    everyAll test nodes = nodes.all (every test) := by
  induction nodes with
  | nil => rfl
  | cons node rest ih => rw [everyAll, ih, List.all_cons]

theorem every_eq (test : Node → Bool) (node : Node) :
    node.every test = (test node && node.children.all (every test)) := by
  cases node <;> simp [every, children, everyAll_eq_all, Bool.and_assoc]

mutual

def rename (r : String → String) : Node → Node
  | number value imaginary => number value imaginary
  | identifier name => identifier (r name)
  | operation left operator right => operation (left.rename r) operator (right.rename r)
  | call name arguments => call name (renameAll r arguments)
  | define name parameters body => define name (parameters.map r) (body.rename r)
  | declare name expression => declare (r name) (expression.rename r)
  | conditional predicate ifTrue ifFalse =>
    conditional (predicate.rename r) (ifTrue.rename r) (ifFalse.rename r)
  | range first second step => range (first.rename r) (second.rename r) (step.rename r)
  | loop counter first second step body =>
    loop (r counter) (first.rename r) (second.rename r) (step.rename r) (body.rename r)
  | assign targets expression => assign (targets.map r) (expression.rename r)
  | factorial expression => factorial (expression.rename r)
  | block nodes => block (renameAll r nodes)
  | array items => array (renameAll r items)
  | index items position => index (items.rename r) (position.rename r)
  | hole => hole

def renameAll (r : String → String) : List Node → List Node
  | [] => []
  | node :: rest => node.rename r :: renameAll r rest

end

theorem renameAll_eq_map (r : String → String) (nodes : List Node) :
    renameAll r nodes = nodes.map (rename r) := by
  induction nodes with
  | nil => rfl
  | cons node rest ih => rw [renameAll, ih, List.map_cons]

@[simp] theorem isDeclaration_rename (r : String → String) (node : Node) :
    (node.rename r).isDeclaration = node.isDeclaration := by
  cases node <;> rfl

mutual

@[simp] theorem rename_id : (node : Node) → node.rename id = node
  | number .. => rfl
  | identifier .. => rfl
  | operation left _ right => by rw [rename, rename_id left, rename_id right]
  | call _ arguments => by rw [rename, renameAll_id arguments]
  | define _ _ body => by rw [rename, List.map_id, rename_id body]
  | declare _ expression => by rw [rename, rename_id expression]; rfl
  | conditional predicate ifTrue ifFalse => by
    rw [rename, rename_id predicate, rename_id ifTrue, rename_id ifFalse]
  | range first second step => by
    rw [rename, rename_id first, rename_id second, rename_id step]
  | loop _ first second step body => by
    rw [rename, rename_id first, rename_id second, rename_id step, rename_id body]; rfl
  | assign _ expression => by rw [rename, List.map_id, rename_id expression]
  | factorial expression => by rw [rename, rename_id expression]
  | block nodes => by rw [rename, renameAll_id nodes]
  | array items => by rw [rename, renameAll_id items]
  | index items position => by rw [rename, rename_id items, rename_id position]
  | hole => rfl

theorem renameAll_id : (nodes : List Node) → renameAll id nodes = nodes
  | [] => rfl
  | node :: rest => by rw [renameAll, rename_id node, renameAll_id rest]

end

end Node

def Declaration.rename (r : String → String) (d : Declaration) : Declaration :=
  ⟨d.parameters.map r, d.body.rename r⟩

@[simp] theorem Declaration.rename_id (d : Declaration) : d.rename id = d := by
  rw [rename, List.map_id, Node.rename_id]

end Reckoner
