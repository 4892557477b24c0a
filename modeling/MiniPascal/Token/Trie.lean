/-!
A tree of spellings. A node stands for the characters on the way to it, which are its label, and
accepts if they are one of the spellings.
-/

namespace MiniPascal

inductive Trie where
  | node (label : List Char) (accepting : Bool) (children : List (Char × Trie))

namespace Trie

def empty : Trie := node [] false []

def label : Trie → List Char
  | node l _ _ => l

def accepting : Trie → Bool
  | node _ a _ => a

def children : Trie → List (Char × Trie)
  | node _ _ cs => cs

/-- The node one character further. -/
def child? (t : Trie) (c : Char) : Option Trie := t.children.lookup c

/-- Applies `f` to the child under `c`, after making one labelled `label` if there is none. -/
def updateChild (c : Char) (label : List Char) (f : Trie → Trie) :
    List (Char × Trie) → List (Char × Trie)
  | [] => [(c, f (node label false []))]
  | (d, t) :: rest => if d = c then (d, f t) :: rest else (d, t) :: updateChild c label f rest

/-- Adds a spelling below a node. -/
def insert : List Char → Trie → Trie
  | [], node l _ cs => node l true cs
  | c :: s, node l a cs => node l a (updateChild c (l ++ [c]) (insert s) cs)

/-- The tree of the spellings that are not empty. -/
def ofList (spellings : List (List Char)) : Trie :=
  (spellings.filter (· ≠ [])).foldl (fun t s => insert s t) empty

/-- The node behind exactly the given characters. -/
def walk? : Trie → List Char → Option Trie
  | t, [] => some t
  | t, c :: s =>
    match t.child? c with
    | none => none
    | some u => walk? u s

/-- The last node on the way along the given characters. -/
def furthest : Trie → List Char → Trie
  | t, [] => t
  | t, c :: s =>
    match t.child? c with
    | none => t
    | some u => furthest u s

/-- Whether some spelling begins with `c`. -/
def starts (t : Trie) (c : Char) : Bool := (t.child? c).isSome

/-- Whether `s` is one of the spellings. -/
def contains (t : Trie) (s : List Char) : Bool :=
  match t.walk? s with
  | none => false
  | some u => u.accepting

/-- The longest beginning of `s` that begins a spelling, and whether it is one itself. -/
def longest (t : Trie) (s : List Char) : List Char × Bool :=
  let u := t.furthest s
  (u.label, u.accepting)

end Trie

end MiniPascal
