/-! The library that every session starts with, in the language itself. Closures look their free
identifiers up where they are called, so the parameters have names that callers do not use. -/
namespace DynamicLisp.Library

def isNull : String := "(define (null? lib/xs) (eq? lib/xs empty))"

def map : String :=
"(define (map lib/f lib/xs)
  (if (null? lib/xs)
      empty
      (cons (lib/f (car lib/xs)) (map lib/f (cdr lib/xs)))))"

def filter : String :=
"(define (filter lib/keep? lib/xs)
  (cond
    ((null? lib/xs) empty)
    ((lib/keep? (car lib/xs)) (cons (car lib/xs) (filter lib/keep? (cdr lib/xs))))
    (else (filter lib/keep? (cdr lib/xs)))))"

def foldl : String :=
"(define (foldl lib/f lib/acc lib/xs)
  (if (null? lib/xs)
      lib/acc
      (foldl lib/f (lib/f lib/acc (car lib/xs)) (cdr lib/xs))))"

def reverse : String :=
"(define (reverse lib/xs)
  (foldl (lambda (lib/acc lib/x) (cons lib/x lib/acc)) empty lib/xs))"

def range : String :=
"(define (range lib/from lib/to)
  (if (>= lib/from lib/to)
      empty
      (cons lib/from (range (+ lib/from 1) lib/to))))"

def source : String := "\n\n".intercalate [isNull, map, filter, foldl, reverse, range]

end DynamicLisp.Library
