import PostfixAutomata.Main
import PostfixAutomata.Session
import PostfixAutomata.Dfa.Transitions
import PostfixAutomata.Nfa.Path
import PostfixAutomata.Proofs.Allocation
import PostfixAutomata.Proofs.Automaton.WellFormed
import PostfixAutomata.Proofs.Nfa.Operators
import PostfixAutomata.Proofs.Dfa.Complement
import PostfixAutomata.Proofs.Dfa.Conversion
import PostfixAutomata.Proofs.Nfa.Language
import PostfixAutomata.Proofs.Nfa.Determinization
import PostfixAutomata.Proofs.Automaton.Drawn
import PostfixAutomata.Proofs.Machine.Drawn
import PostfixAutomata.Proofs.Session.Sound
import PostfixAutomata.Proofs.Interpreter.Ownership
import PostfixAutomata.Proofs.Session.Language
import PostfixAutomata.Proofs.Dfa.Words
import PostfixAutomata.Proofs.Machine.Language
import PostfixAutomata.Proofs.Interpreter.Command
import PostfixAutomata.Proofs.Nfa.Sparse
import PostfixAutomata.Proofs.Interpreter.Slim
import PostfixAutomata.Proofs.Interpreter.Meaning
import PostfixAutomata.Proofs.Interpreter.Agreement
import PostfixAutomata.Proofs.Session.Step
import PostfixAutomata.Proofs.Session.Consistency
import PostfixAutomata.Proofs.Nfa.Merge
import PostfixAutomata.Proofs.Session.Apart
import PostfixAutomata.Proofs.Session.Freshness
import PostfixAutomata.Proofs.Interpreter.Failure
import PostfixAutomata.Proofs.Interpreter.Queries
import PostfixAutomata.Proofs.Interpreter.Reading
import PostfixAutomata.Proofs.Interpreter.Capacity
import PostfixAutomata.Proofs.Description
import PostfixAutomata.Proofs.Description.Encoding
import PostfixAutomata.Proofs.Session.Saving
import PostfixAutomata.Proofs.Session.Operators
import PostfixAutomata.Proofs.Nfa.Subsets
import PostfixAutomata.Proofs.Text.Lines
import PostfixAutomata.Proofs.Interpreter.Frame
import PostfixAutomata.Proofs.Description.Loading
import PostfixAutomata.Proofs.Session.Loading
import PostfixAutomata.Proofs.Nfa.Lockstep
import PostfixAutomata.Proofs.Automaton.Renaming
import PostfixAutomata.Proofs.Session.Numbering
import PostfixAutomata.Proofs.Nfa.EpsilonClosure
import PostfixAutomata.Proofs.Session.Completion
import PostfixAutomata.Proofs.Dfa.Reached
import PostfixAutomata.Proofs.Session.Conversion
import PostfixAutomata.Proofs.Nfa.Sizes
import PostfixAutomata.Proofs.Interpreter.Expression
import PostfixAutomata.Proofs.Text.Delimited
import PostfixAutomata.Proofs.Automaton.Report
import PostfixAutomata.Proofs.Session.Statistics
import PostfixAutomata.Proofs.Interpreter.Associativity
import PostfixAutomata.Proofs.Automaton.Overflow
import PostfixAutomata.Proofs.Session.Handles
import PostfixAutomata.Proofs.Session.Structure
