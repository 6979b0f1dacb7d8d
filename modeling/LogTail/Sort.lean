namespace LogTail.Sort

variable {α : Type} (le : α → α → Bool)

def insert (a : α) : List α → List α
  | [] => [a]
  | b :: bs => if le a b then a :: b :: bs else b :: insert a bs

def sort (as : List α) : List α := as.foldr (insert le) []

end LogTail.Sort
