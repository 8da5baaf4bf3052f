import NeuralTicTacToe.Console.Accounting
import NeuralTicTacToe.Console.Conservation
import NeuralTicTacToe.Console.Learner
import NeuralTicTacToe.Console.Overtraining
import NeuralTicTacToe.Console.Printing
import NeuralTicTacToe.Console.Tolerance
import NeuralTicTacToe.Framework.Deadlines
import NeuralTicTacToe.Net.BestMove
import NeuralTicTacToe.Net.FirstGame
import NeuralTicTacToe.Net.Playable
import NeuralTicTacToe.Net.PlayedPath
import NeuralTicTacToe.Net.RandomPick
import NeuralTicTacToe.SearchTree.Listings
import NeuralTicTacToe.Website.Answers
import NeuralTicTacToe.Website.Decimals
import NeuralTicTacToe.Website.Endings
import NeuralTicTacToe.Website.FailedLoad
import NeuralTicTacToe.Website.Ids
import NeuralTicTacToe.Website.RealMoves
import NeuralTicTacToe.Website.Returns
import NeuralTicTacToe.Website.SaveAgain
import NeuralTicTacToe.Website.Snapshots
import NeuralTicTacToe.Website.StoredGraph
import NeuralTicTacToe.Website.Texts
import NeuralTicTacToe.Website.Trained
import NeuralTicTacToe.Website.Turns
import NeuralTicTacToe.Website.Verdicts
